import CrossbeamChannel.Flavors.ListInv
import Mathlib.Tactic.Common

/-!
# Every atomic step of the list flavor keeps the invariant

One lemma per event, in the order of a message's life: an index CAS on either end, the three
steps that move a message, and the two CASes of `install_next_block` on either end. What
they share is in the first section: the other threads keep their local facts (`pcs_le`), and
a pc that holds what the old one held keeps the tickets.
-/

namespace CrossbeamChannel.ListFlavor

variable {Tid T : Type}

theorem Pc.sendStage_owner {t : Tid} {pc : Pc T} {st : SendStage Tid}
    (h : pc.sendStage t = some st) : st.owner = some t := by
  unfold Pc.sendStage at h
  split at h <;> first | (obtain rfl := Option.some.inj h; rfl) | exact absurd h (by simp)

theorem Pc.recvStage_owner {t : Tid} {pc : Pc T} {st : RecvStage Tid}
    (h : pc.recvStage t = some st) : st.owner = some t := by
  unfold Pc.recvStage at h
  split at h <;> first | (obtain rfl := Option.some.inj h; rfl) | exact absurd h (by simp)

/-- A thread that is going to retire a block holds the claim of its last slot. -/
theorem Pc.retiring_recvStage {t : Tid} {pc : Pc T} {b : Nat} (h : pc.retiring = some b) :
    pc.recvStage t = some (.claimed t) := by
  unfold Pc.retiring at h
  split at h <;> first | rfl | exact absurd h (by simp)

theorem History.view_congr {h h' : History Tid T} {k : Nat} (hs : h'.sendRank k = h.sendRank k)
    (hr : h'.recvRank k < 2 ↔ h.recvRank k < 2) (hp : h'.put k = h.put k) :
    h'.view k = h.view k := by
  unfold History.view
  simp only [hs, hr, hp]

theorem History.view_vacant {h : History Tid T} {k : Nat} (hs : h.sendRank k = 0) :
    h.view k = ⟨none, false⟩ := by
  unfold History.view
  rw [hs]
  simp

theorem sendReserved_spec (t : Tid) (b offset : Nat) :
    (sendReserved b offset : Pc T).sendStage t = some (.reserved t) ∧
      (sendReserved b offset : Pc T).recvStage t = none ∧
      (sendReserved b offset : Pc T).retiring = none := by
  unfold sendReserved
  split <;> exact ⟨rfl, rfl, rfl⟩

theorem recvClaimed_spec (t : Tid) (b offset : Nat) :
    (recvClaimed b offset : Pc T).sendStage t = none ∧
      (recvClaimed b offset : Pc T).recvStage t = some (.claimed t) ∧
      ∀ c, (recvClaimed b offset : Pc T).retiring = some c → c = b ∧ offset + 1 = blockCap := by
  unfold recvClaimed
  split
  · rename_i hl
    exact ⟨rfl, rfl, fun c hc => ⟨(Option.some.inj hc).symm, hl⟩⟩
  · exact ⟨rfl, rfl, fun c hc => absurd hc (by simp [Pc.retiring])⟩

theorem PcOk.retiring {s : State Tid T} {t : Tid} {pc : Pc T} {b : Nat} (hp : PcOk s t pc)
    (h : pc.retiring = some b) : s.hist.ticket t + 1 = blockCap * (b + 1) := by
  have last : ∀ {offset}, s.hist.Last t b (some offset) →
      s.hist.ticket t + 1 = blockCap * (b + 1) := by
    intro offset hl
    obtain ⟨h1, -, h2⟩ := hl offset rfl
    rw [h2, Nat.add_assoc, h1, Nat.mul_succ]
  unfold Pc.retiring at h
  split at h
  · obtain rfl := Option.some.inj h
    exact last hp.2.2
  · obtain rfl := Option.some.inj h
    exact last hp.2.2.1
  · obtain rfl := Option.some.inj h
    exact last hp.2
  · exact absurd h (by simp)

namespace Inv

variable {s : State Tid T}

/-- Whoever is going to retire a block is alone in that. -/
theorem retiring_unique (hi : Inv s) {t u : Tid} {b : Nat} (ht : (s.pc t).retiring = some b)
    (hu : (s.pc u).retiring = some b) : t = u := by
  have h1 := (hi.pcs t).retiring ht
  have h2 := (hi.pcs u).retiring hu
  exact hi.receivers.inj (Pc.retiring_recvStage ht) (Pc.retiring_recvStage hu) (by omega)

/-- The block of an end is the block of its index, unless it lags one behind. -/
theorem block_eq {b c n offset : Nat} (hlow : blockCap * c ≤ n) (hb : b ≤ c)
    (ho : offset < blockCap) (hn : n = blockCap * b + offset) : b = c := by
  unfold blockCap at *
  omega

variable [DecidableEq Tid]

/-- The other threads' local facts, and the facts of the thread that moved. -/
theorem pcs_le (hi : Inv s) {t : Tid} {pc : Pc T} {ch : Channel T} {h' : History Tid T}
    (hle : ∀ u, u ≠ t → Le u s { chan := ch, pc := Function.update s.pc t pc, hist := h' })
    (hp : PcOk { chan := ch, pc := Function.update s.pc t pc, hist := h' } t pc) (u : Tid) :
    PcOk { chan := ch, pc := Function.update s.pc t pc, hist := h' } u
      (Function.update s.pc t pc u) := by
  by_cases hut : u = t
  · subst hut
    rw [Function.update_self]
    exact hp
  · rw [Function.update_of_ne hut]
    exact (hi.pcs u).mono (hle u hut)

theorem senders_keep (hi : Inv s) {t : Tid} {pc : Pc T} {ticket : Tid → Nat}
    (hst : pc.sendStage t = (s.pc t).sendStage t)
    (htick : ∀ u, (s.pc u).sendStage u ≠ none → ticket u = s.hist.ticket u) :
    Lib.Tickets SendStage.owner s.hist.sendStage ticket
      fun u => (Function.update s.pc t pc u).sendStage u := by
  refine hi.senders.keep (fun u => ?_) htick
  by_cases hut : u = t
  · subst hut
    simp only [Function.update_self, hst]
  · simp only [Function.update_of_ne hut]

theorem receivers_keep (hi : Inv s) {t : Tid} {pc : Pc T} {ticket : Tid → Nat}
    (hst : pc.recvStage t = (s.pc t).recvStage t)
    (htick : ∀ u, (s.pc u).recvStage u ≠ none → ticket u = s.hist.ticket u) :
    Lib.Tickets RecvStage.owner s.hist.recvStage ticket
      fun u => (Function.update s.pc t pc u).recvStage u := by
  refine hi.receivers.keep (fun u => ?_) htick
  by_cases hut : u = t
  · subst hut
    simp only [Function.update_self, hst]
  · simp only [Function.update_of_ne hut]

theorem retiring_keep (hi : Inv s) {t : Tid} {pc : Pc T}
    (h : ∀ b, pc.retiring = some b → b ∉ s.hist.destroyed) (u : Tid) (b : Nat)
    (hu : (Function.update s.pc t pc u).retiring = some b) : b ∉ s.hist.destroyed := by
  by_cases hut : u = t
  · subst hut
    rw [Function.update_self] at hu
    exact h b hu
  · rw [Function.update_of_ne hut] at hu
    exact hi.retiring u b hu

/-- A silent step: only the pc of `t` (and perhaps the flag) changes. -/
theorem setPc (hi : Inv s) {t : Tid} {pc : Pc T} (flag : Bool)
    (hs : pc.sendStage t = (s.pc t).sendStage t) (hr : pc.recvStage t = (s.pc t).recvStage t)
    (hret : ∀ b, pc.retiring = some b → (s.pc t).retiring = some b) (hp : PcOk s t pc) :
    Inv { s with chan := { s.chan with isDisconnected := flag },
                 pc := Function.update s.pc t pc } where
  chain := ⟨hi.chain.start, hi.chain.next, hi.chain.headBlock, hi.chain.tailBlock⟩
  ends := ⟨hi.ends.headIndex, hi.ends.tailIndex, hi.ends.headLow, hi.ends.headHigh,
    hi.ends.tailLow, hi.ends.tailHigh, hi.ends.ordered⟩
  stages := hi.stages
  slot := hi.slot
  senders := hi.senders_keep hs fun _ _ => rfl
  receivers := hi.receivers_keep hr fun _ _ => rfl
  retired := ⟨hi.retired.moved, hi.retired.destroyed, hi.retired.once⟩
  retiring := hi.retiring_keep fun b hb => hi.retiring t b (hret b hb)
  pcs := by
    have hle : ∀ u, Le u s { s with chan := { s.chan with isDisconnected := flag },
                                    pc := Function.update s.pc t pc } := fun u =>
      ⟨Nat.le_refl _, Nat.le_refl _, Nat.le_refl _, Nat.le_refl _, Nat.le_refl _, rfl,
        fun _ h => h, fun _ h => ⟨h, rfl⟩⟩
    exact hi.pcs_le (fun u _ => hle u) (hp.mono (hle t))

/-! ## The index CASes -/

section

variable {t : Tid} {b index offset : Nat}

omit [DecidableEq Tid] in
theorem count_succ {n : Nat} {r r' : Nat → Nat} (hn : ∀ j, j < n ↔ 1 ≤ r j)
    (hr : ∀ j, r' j = if j = n then 1 else r j) (j : Nat) : j < n + 1 ↔ 1 ≤ r' j := by
  rw [hr]
  split
  · omega
  · rw [← hn]; omega

omit [DecidableEq Tid] in
theorem count_same {n k v : Nat} {r r' : Nat → Nat} (hn : ∀ j, j < n ↔ 1 ≤ r j)
    (hr : ∀ j, r' j = if j = k then v else r j) (hk : 1 ≤ r k) (hv : 1 ≤ v) (j : Nat) :
    j < n ↔ 1 ≤ r' j := by
  rw [hr, hn]
  split
  · subst j; omega
  · exact Iff.rfl

omit [DecidableEq Tid] in
theorem sendRank_update (h : History Tid T) (k : Nat) (st : SendStage Tid) (j : Nat) :
    (Function.update h.sendStage k st j).rank = if j = k then st.rank else h.sendRank j := by
  rw [Function.update_apply]
  split <;> rfl

omit [DecidableEq Tid] in
theorem recvRank_update (h : History Tid T) (k : Nat) (st : RecvStage Tid) (j : Nat) :
    (Function.update h.recvStage k st j).rank = if j = k then st.rank else h.recvRank j := by
  rw [Function.update_apply]
  split <;> rfl

omit [DecidableEq Tid] in
theorem sendStage_vacant (hi : Inv s) : s.hist.sendStage s.hist.sends = .vacant := by
  have h0 := mt (hi.stages.sends s.hist.sends).mpr (Nat.lt_irrefl _)
  cases hs : s.hist.sendStage s.hist.sends <;> simp [History.sendRank, hs] at h0
  rfl

omit [DecidableEq Tid] in
theorem recvStage_vacant (hi : Inv s) {k : Nat} (hk : s.hist.recvs ≤ k) :
    s.hist.recvStage k = .vacant := by
  have h0 := mt (hi.stages.recvs k).mpr (by omega)
  cases hs : s.hist.recvStage k <;> simp [History.recvRank, hs] at h0
  rfl

/-- A successful tail-index CAS reserves the next index. -/
theorem tailCas (hi : Inv s) (hpc : s.pc t = .sendCas b index offset)
    (hcas : s.chan.tail.index = index) :
    Inv { chan := { s.chan with tail := { s.chan.tail with index := index + 1 } }
          pc := Function.update s.pc t (sendReserved b offset)
          hist := s.hist.record t .tailCas } := by
  obtain ⟨hb, ho, hidx⟩ : PcOk s t (.sendCas b index offset) := hpc ▸ hi.pcs t
  have hends := hi.ends
  have hsends : s.hist.sends = index := hends.tailIndex.symm.trans hcas
  have hbt : b = s.chan.tail.block := block_eq hends.tailLow hb ho (hsends.trans hidx)
  have hvac := hi.sendStage_vacant
  have hspec := sendReserved_spec (T := T) t b offset
  have hrank : ∀ j, (s.hist.record t .tailCas).sendRank j
      = if j = s.hist.sends then 1 else s.hist.sendRank j :=
    sendRank_update s.hist s.hist.sends (.reserved t)
  have hrank0 : s.hist.sendRank s.hist.sends = 0 := by rw [History.sendRank, hvac]; rfl
  have hrecv0 : s.hist.recvRank s.hist.sends = 0 := by
    rw [History.recvRank, hi.recvStage_vacant hends.ordered]; rfl
  have hlast : (s.hist.record t .tailCas).At t b offset :=
    ⟨ho, by simp only [History.record, Function.update_self]; omega⟩
  refine
    { chain := ⟨hi.chain.start, hi.chain.next, hi.chain.headBlock, hi.chain.tailBlock⟩
      ends := ⟨hends.headIndex, ?_, hends.headLow, hends.headHigh, ?_, ?_, ?_⟩
      stages := ⟨count_succ hi.stages.sends hrank, hi.stages.recvs, fun k hk => ?_,
        fun k => ?_, hi.stages.got⟩
      slot := fun c i hc hi' => ?_
      senders := ?_
      receivers := hi.receivers_keep (by rw [hspec.2.1, hpc]; rfl) fun u hu => ?_
      retired := ⟨hi.retired.moved, hi.retired.destroyed, hi.retired.once⟩
      retiring := hi.retiring_keep fun c hc => ?_
      pcs := hi.pcs_le (fun u hut => ?_) ?_ }
  · change index + 1 = s.hist.sends + 1
    rw [hsends]
  · exact Nat.le_succ_of_le hends.tailLow
  · change s.hist.sends + 1 ≤ blockCap * (s.chan.tail.block + 1)
    rw [Nat.mul_succ, ← hbt]
    omega
  · exact Nat.le_succ_of_le hends.ordered
  · have hready := hi.stages.ready k hk
    rw [hrank, if_neg (by rintro rfl; omega)]
    exact hready
  · change (s.hist.put k).isSome ↔ _
    rw [hrank, hi.stages.put]
    by_cases hk : k = s.hist.sends
    · rw [if_pos hk, hk, hrank0]
      omega
    · rw [if_neg hk]
  · change (s.chan.heap c).slots i = (s.hist.record t .tailCas).view _
    rw [hi.slot c i hc hi']
    by_cases hk : blockCap * c + i = s.hist.sends
    · rw [hk, History.view_vacant hrank0]
      unfold History.view
      rw [hrank, if_pos rfl]
      rfl
    · symm
      refine History.view_congr ?_ Iff.rfl rfl
      rw [hrank, if_neg hk]
  · refine hi.senders.move (fun u hut => ?_) (.inr ⟨by rw [hvac]; rfl, by rw [hpc]; rfl⟩)
      (.inl ⟨rfl, ?_⟩)
    · simp only [Function.update_of_ne hut]
    · simp only [Function.update_self]
      exact hspec.1
  · refine Function.update_of_ne ?_ _ _
    rintro rfl
    exact hu (by rw [hpc]; rfl)
  · rw [hspec.2.2] at hc
    exact absurd hc (by simp)
  · exact ⟨Nat.le_refl _, Nat.le_refl _, Nat.le_refl _, Nat.le_succ _, Nat.le_refl _,
      Function.update_of_ne hut _ _, fun k hk => by
        rw [hrank, if_neg (by rintro rfl; omega)]; exact hk, fun _ h => ⟨h, rfl⟩⟩
  · unfold sendReserved
    split
    · rename_i hl
      refine ⟨hb, ?_, fun i hi => ?_⟩
      · change blockCap * (b + 1) ≤ s.hist.sends + 1
        rw [Nat.mul_succ]
        omega
      · obtain rfl := Option.some.inj hi
        exact ⟨hl, hlast⟩
    · exact ⟨Nat.lt_of_le_of_lt hb hi.chain.tailBlock, hlast⟩

/-- A successful head-index CAS claims the next index. -/
theorem headCas (hi : Inv s) (hpc : s.pc t = .recvCas b index offset)
    (hcas : s.chan.head.index = index) :
    Inv { chan := { s.chan with head := { s.chan.head with index := index + 1 } }
          pc := Function.update s.pc t (recvClaimed b offset)
          hist := s.hist.record t .headCas } := by
  obtain ⟨hb, ho, hidx, hlt⟩ : PcOk s t (.recvCas b index offset) := hpc ▸ hi.pcs t
  have hends := hi.ends
  have hrecvs : s.hist.recvs = index := hends.headIndex.symm.trans hcas
  have hbt : b = s.chan.head.block := block_eq hends.headLow hb ho (hrecvs.trans hidx)
  have hvac := hi.recvStage_vacant (Nat.le_refl _)
  have hspec := recvClaimed_spec (T := T) t b offset
  have hrank : ∀ j, (s.hist.record t .headCas).recvRank j
      = if j = s.hist.recvs then 1 else s.hist.recvRank j :=
    recvRank_update s.hist s.hist.recvs (.claimed t)
  have hrank0 : s.hist.recvRank s.hist.recvs = 0 := by rw [History.recvRank, hvac]; rfl
  have hlast : (s.hist.record t .headCas).At t b offset :=
    ⟨ho, by simp only [History.record, Function.update_self]; omega⟩
  refine
    { chain := ⟨hi.chain.start, hi.chain.next, hi.chain.headBlock, hi.chain.tailBlock⟩
      ends := ⟨?_, hends.tailIndex, ?_, ?_, hends.tailLow, hends.tailHigh, ?_⟩
      stages := ⟨hi.stages.sends, count_succ hi.stages.recvs hrank, fun k hk => ?_,
        hi.stages.put, fun k => ?_⟩
      slot := fun c i hc hi' => ?_
      senders := hi.senders_keep (by rw [hspec.1, hpc]; rfl) fun u hu => ?_
      receivers := ?_
      retired := ⟨hi.retired.moved, hi.retired.destroyed, hi.retired.once⟩
      retiring := hi.retiring_keep fun c hc => ?_
      pcs := hi.pcs_le (fun u hut => ?_) ?_ }
  · change index + 1 = s.hist.recvs + 1
    rw [hrecvs]
  · exact Nat.le_succ_of_le hends.headLow
  · change s.hist.recvs + 1 ≤ blockCap * (s.chan.head.block + 1)
    rw [Nat.mul_succ, ← hbt]
    omega
  · change s.hist.recvs + 1 ≤ s.hist.sends
    omega
  · rw [hrank] at hk
    by_cases hkr : k = s.hist.recvs
    · rw [if_pos hkr] at hk
      omega
    · rw [if_neg hkr] at hk
      exact hi.stages.ready k hk
  · change s.hist.got k = if _ then s.hist.put k else none
    rw [hrank, hi.stages.got]
    by_cases hk : k = s.hist.recvs
    · subst hk
      rw [hrank0, if_pos rfl]
      rfl
    · rw [if_neg hk]
  · change (s.chan.heap c).slots i = (s.hist.record t .headCas).view _
    rw [hi.slot c i hc hi']
    symm
    refine History.view_congr rfl ?_ rfl
    rw [hrank]
    split
    · rename_i hk
      rw [hk, hrank0]
      omega
    · exact Iff.rfl
  · refine Function.update_of_ne ?_ _ _
    rintro rfl
    exact hu (by rw [hpc]; rfl)
  · refine hi.receivers.move (fun u hut => ?_) (.inr ⟨by rw [hvac]; rfl, by rw [hpc]; rfl⟩)
      (.inl ⟨rfl, ?_⟩)
    · simp only [Function.update_of_ne hut]
    · simp only [Function.update_self]
      exact hspec.2.1
  · -- the block was not destroyed before, because its last index was not claimed before
    obtain ⟨rfl, hl⟩ := hspec.2.2 c hc
    intro hmem
    have := hi.retired.destroyed c hmem
    omega
  · exact ⟨Nat.le_refl _, Nat.le_refl _, Nat.le_refl _, Nat.le_refl _, Nat.le_succ _,
      Function.update_of_ne hut _ _, fun _ h => h, fun k hk => ⟨by
        rw [hrank, if_neg (by rintro rfl; omega)]; exact hk, rfl⟩⟩
  · unfold recvClaimed
    split
    · rename_i hl
      refine ⟨hb, ?_, fun i hi => ?_⟩
      · change blockCap * (b + 1) ≤ s.hist.recvs + 1
        rw [Nat.mul_succ]
        omega
      · obtain rfl := Option.some.inj hi
        exact ⟨hl, hlast⟩
    · exact ⟨Nat.lt_of_le_of_lt hb hi.chain.headBlock, hlast⟩

/-! ## The three steps of a message -/

omit [DecidableEq Tid] in
theorem setSlot_slots (ch : Channel T) (b offset : Nat) (v : Slot T) (c i : Nat) :
    ((ch.setSlot b offset v).heap c).slots i
      = if c = b ∧ i = offset then v else (ch.heap c).slots i := by
  unfold Channel.setSlot
  by_cases hc : c = b
  · subst hc
    by_cases hi : i = offset
    · subst hi
      simp
    · simp [hi]
  · simp [hc]

omit [DecidableEq Tid] in
theorem setSlot_start (ch : Channel T) (b offset : Nat) (v : Slot T) (c : Nat) :
    ((ch.setSlot b offset v).heap c).startIndex = (ch.heap c).startIndex ∧
      ((ch.setSlot b offset v).heap c).next = (ch.heap c).next := by
  unfold Channel.setSlot
  by_cases hc : c = b
  · subst hc
    simp
  · simp [hc]

omit [DecidableEq Tid] in
theorem chain_setSlot (hc : Chain s.chan) (b offset : Nat) (v : Slot T) :
    Chain (s.chan.setSlot b offset v) where
  start c h := by rw [(setSlot_start _ _ _ _ c).1]; exact hc.start c h
  next c h := by rw [(setSlot_start _ _ _ _ c).2]; exact hc.next c h
  headBlock := hc.headBlock
  tailBlock := hc.tailBlock

omit [DecidableEq Tid] in
/-- Two slots are one when their indices are. -/
theorem index_inj {b c i j : Nat} (hi : i < blockCap) (hj : j < blockCap)
    (h : blockCap * b + i = blockCap * c + j) : b = c ∧ i = j := by
  unfold blockCap at *
  omega

omit [DecidableEq Tid] in
/-- The slots after a step of the message at index `k`. -/
theorem slot_set (hi : Inv s) {h' : History Tid T} {k : Nat} {v : Slot T}
    (hk : blockCap * b + offset = k) (ho : offset < blockCap) (hv : v = h'.view k)
    (hother : ∀ j, j ≠ k → h'.view j = s.hist.view j) (c i : Nat)
    (hc : c < s.chan.fresh) (hi' : i < blockCap) :
    ((s.chan.setSlot b offset v).heap c).slots i = h'.view (blockCap * c + i) := by
  rw [setSlot_slots]
  split
  · rename_i h
    obtain ⟨rfl, rfl⟩ := h
    rw [hk, hv]
  · rename_i h
    rw [hi.slot c i hc hi', hother]
    intro heq
    exact h (index_inj hi' ho (heq.trans hk.symm))

/-- Writing the message into the slot. -/
theorem put_msg (hi : Inv s) {msg : T} (hpc : s.pc t = .writeMsg b offset msg) :
    Inv { chan := s.chan.setSlot b offset
            { (s.chan.heap b).slots offset with msg := some msg }
          pc := Function.update s.pc t (.writeReady b offset)
          hist := s.hist.record t (.put msg) } := by
  obtain ⟨hb, ho, hk⟩ : PcOk s t (.writeMsg b offset msg) := hpc ▸ hi.pcs t
  obtain ⟨hst, how⟩ := hi.senders.held_owner
    (show (s.pc t).sendStage t = some (.reserved t) by rw [hpc]; rfl)
  have hr1 : s.hist.sendRank (s.hist.ticket t) = 1 := by rw [History.sendRank, hst]; rfl
  have hr2 : s.hist.recvRank (s.hist.ticket t) < 2 := by
    by_contra h2
    have := hi.stages.ready (s.hist.ticket t) (by
      have : s.hist.recvRank (s.hist.ticket t) ≤ 2 := by
        unfold History.recvRank
        cases s.hist.recvStage (s.hist.ticket t) <;> simp
      omega)
    omega
  have hrank : ∀ j, (s.hist.record t (.put msg)).sendRank j
      = if j = s.hist.ticket t then 2 else s.hist.sendRank j :=
    sendRank_update s.hist _ (.stored t)
  have hput : ∀ j, j ≠ s.hist.ticket t → (s.hist.record t (.put msg)).put j = s.hist.put j :=
    fun j hj => Function.update_of_ne hj _ _
  refine
    { chain := chain_setSlot hi.chain b offset _
      ends := ⟨hi.ends.headIndex, hi.ends.tailIndex, hi.ends.headLow, hi.ends.headHigh,
        hi.ends.tailLow, hi.ends.tailHigh, hi.ends.ordered⟩
      stages := ⟨count_same hi.stages.sends hrank (by omega) (by omega), hi.stages.recvs,
        fun k h2 => ?_, fun k => ?_, fun k => ?_⟩
      slot := hi.slot_set hk.symm ho ?_ fun j hj => ?_
      senders := ?_
      receivers := hi.receivers_keep (by rw [hpc]; rfl) fun _ _ => rfl
      retired := ⟨hi.retired.moved, hi.retired.destroyed, hi.retired.once⟩
      retiring := hi.retiring_keep fun c hc => absurd hc (by simp [Pc.retiring])
      pcs := hi.pcs_le (fun u hut => ?_) ⟨hb, ho, hk⟩ }
  · have h3 := hi.stages.ready k h2
    rw [hrank, if_neg (by rintro rfl; omega)]
    exact h3
  · rw [hrank]
    by_cases hkt : k = s.hist.ticket t
    · subst hkt
      simp [History.record]
    · rw [if_neg hkt, hput k hkt]
      exact hi.stages.put k
  · change s.hist.got k = if s.hist.recvRank k = 2 then _ else none
    rw [hi.stages.got]
    by_cases hkt : k = s.hist.ticket t
    · subst hkt
      rw [if_neg (by omega), if_neg (by omega)]
    · rw [hput k hkt]
  · rw [hi.slot b offset hb ho, ← hk]
    unfold History.view
    rw [hrank, if_pos rfl, hr1]
    simp [History.record, hr2]
  · refine History.view_congr ?_ Iff.rfl (hput j hj)
    rw [hrank, if_neg hj]
  · refine hi.senders.advance (fun u hut => ?_) how (.inl ⟨rfl, ?_⟩)
    · simp only [Function.update_of_ne hut]
    · simp only [Function.update_self]
      rfl
  · exact ⟨Nat.le_refl _, Nat.le_refl _, Nat.le_refl _, Nat.le_refl _, Nat.le_refl _, rfl,
      fun k h3 => by rw [hrank, if_neg (by rintro rfl; omega)]; exact h3, fun _ h => ⟨h, rfl⟩⟩

/-- Setting the ready flag hands the slot to the receiver of its index. -/
theorem publish (hi : Inv s) (hpc : s.pc t = .writeReady b offset) :
    Inv { chan := s.chan.setSlot b offset
            { (s.chan.heap b).slots offset with ready := true }
          pc := Function.update s.pc t .written
          hist := s.hist.record t .publish } := by
  obtain ⟨hb, ho, hk⟩ : PcOk s t (.writeReady b offset) := hpc ▸ hi.pcs t
  obtain ⟨hst, how⟩ := hi.senders.held_owner
    (show (s.pc t).sendStage t = some (.stored t) by rw [hpc]; rfl)
  have hr : s.hist.sendRank (s.hist.ticket t) = 2 := by rw [History.sendRank, hst]; rfl
  have hrank : ∀ j, (s.hist.record t .publish).sendRank j
      = if j = s.hist.ticket t then 3 else s.hist.sendRank j :=
    sendRank_update s.hist _ .ready
  refine
    { chain := chain_setSlot hi.chain b offset _
      ends := ⟨hi.ends.headIndex, hi.ends.tailIndex, hi.ends.headLow, hi.ends.headHigh,
        hi.ends.tailLow, hi.ends.tailHigh, hi.ends.ordered⟩
      stages := ⟨count_same hi.stages.sends hrank (by omega) (by omega), hi.stages.recvs,
        fun k h2 => ?_, fun k => ?_, hi.stages.got⟩
      slot := hi.slot_set hk.symm ho ?_ fun j hj => ?_
      senders := ?_
      receivers := hi.receivers_keep (by rw [hpc]; rfl) fun _ _ => rfl
      retired := ⟨hi.retired.moved, hi.retired.destroyed, hi.retired.once⟩
      retiring := hi.retiring_keep fun c hc => absurd hc (by simp [Pc.retiring])
      pcs := hi.pcs_le (fun u hut => ?_) trivial }
  · rw [hrank]
    split
    · rfl
    · exact hi.stages.ready k h2
  · change (s.hist.put k).isSome ↔ _
    rw [hi.stages.put, hrank]
    by_cases hkt : k = s.hist.ticket t
    · rw [if_pos hkt, hkt]
      omega
    · rw [if_neg hkt]
  · rw [hi.slot b offset hb ho, ← hk]
    unfold History.view
    rw [hrank, if_pos rfl, hr]
    simp [History.record, History.recvRank]
  · refine History.view_congr ?_ Iff.rfl rfl
    rw [hrank, if_neg hj]
  · refine hi.senders.advance (fun u hut => ?_) how (.inr ⟨rfl, ?_⟩)
    · simp only [Function.update_of_ne hut]
    · simp only [Function.update_self]
      rfl
  · exact ⟨Nat.le_refl _, Nat.le_refl _, Nat.le_refl _, Nat.le_refl _, Nat.le_refl _, rfl,
      fun k h3 => by rw [hrank]; split <;> [rfl; exact h3], fun _ h => ⟨h, rfl⟩⟩

omit [DecidableEq Tid] in
/-- The slot a thread reads from holds the message of its index. -/
theorem readMsg_slot (hi : Inv s) (hpc : s.pc t = .readMsg b offset) :
    s.hist.recvRank (s.hist.ticket t) = 1 ∧ (s.hist.put (s.hist.ticket t)).isSome ∧
      (s.chan.heap b).slots offset = ⟨s.hist.put (s.hist.ticket t), true⟩ := by
  obtain ⟨hb, ⟨ho, hk⟩, h3⟩ : PcOk s t (.readMsg b offset) := hpc ▸ hi.pcs t
  obtain ⟨hst, -⟩ := hi.receivers.held_owner
    (show (s.pc t).recvStage t = some (.claimed t) by rw [hpc]; rfl)
  have hr : s.hist.recvRank (s.hist.ticket t) = 1 := by rw [History.recvRank, hst]; rfl
  refine ⟨hr, (hi.stages.put _).mpr (by omega), ?_⟩
  rw [hi.slot b offset hb ho, ← hk]
  unfold History.view
  rw [h3, hr]
  rfl

/-- Reading the message out of the slot. -/
theorem got_msg (hi : Inv s) (hpc : s.pc t = .readMsg b offset) :
    Inv { chan := s.chan.setSlot b offset { (s.chan.heap b).slots offset with msg := none }
          pc := Function.update s.pc t (.readOk ((s.chan.heap b).slots offset).msg)
          hist := s.hist.record t (.got ((s.chan.heap b).slots offset).msg) } := by
  obtain ⟨hr, -, hslot⟩ := hi.readMsg_slot hpc
  obtain ⟨hb, ⟨ho, hk⟩, h3⟩ : PcOk s t (.readMsg b offset) := hpc ▸ hi.pcs t
  obtain ⟨hst, how⟩ := hi.receivers.held_owner
    (show (s.pc t).recvStage t = some (.claimed t) by rw [hpc]; rfl)
  rw [hslot]
  have hrank : ∀ j, (s.hist.record t (.got (s.hist.put (s.hist.ticket t)))).recvRank j
      = if j = s.hist.ticket t then 2 else s.hist.recvRank j :=
    recvRank_update s.hist _ .taken
  have hgot : ∀ j, (s.hist.record t (.got (s.hist.put (s.hist.ticket t)))).got j
      = if j = s.hist.ticket t then s.hist.put (s.hist.ticket t) else s.hist.got j := fun j =>
    Function.update_apply _ _ _ _
  refine
    { chain := chain_setSlot hi.chain b offset _
      ends := ⟨hi.ends.headIndex, hi.ends.tailIndex, hi.ends.headLow, hi.ends.headHigh,
        hi.ends.tailLow, hi.ends.tailHigh, hi.ends.ordered⟩
      stages := ⟨hi.stages.sends, count_same hi.stages.recvs hrank (by omega) (by omega),
        fun k h2 => ?_, hi.stages.put, fun k => ?_⟩
      slot := hi.slot_set hk.symm ho ?_ fun j hj => ?_
      senders := hi.senders_keep (by rw [hpc]; rfl) fun _ _ => rfl
      receivers := ?_
      retired := ⟨hi.retired.moved, hi.retired.destroyed, hi.retired.once⟩
      retiring := hi.retiring_keep fun c hc => absurd hc (by simp [Pc.retiring])
      pcs := hi.pcs_le (fun u hut => ?_) ⟨?_, ?_⟩ }
  · rw [hrank] at h2
    by_cases hkt : k = s.hist.ticket t
    · rw [hkt]
      exact h3
    · rw [if_neg hkt] at h2
      exact hi.stages.ready k h2
  · rw [hgot, hrank]
    by_cases hkt : k = s.hist.ticket t
    · rw [if_pos hkt, if_pos hkt, if_pos rfl, hkt]
      rfl
    · rw [if_neg hkt, if_neg hkt, hi.stages.got]
      rfl
  · unfold History.view
    rw [hrank, if_pos rfl]
    have h3' : (s.hist.record t (.got (s.hist.put (s.hist.ticket t)))).sendRank
        (s.hist.ticket t) = 3 := h3
    rw [h3']
    simp
  · refine History.view_congr rfl ?_ rfl
    rw [hrank, if_neg hj]
  · refine hi.receivers.advance (fun u hut => ?_) how (.inr ⟨rfl, ?_⟩)
    · simp only [Function.update_of_ne hut]
    · simp only [Function.update_self]
      rfl
  · refine ⟨Nat.le_refl _, Nat.le_refl _, Nat.le_refl _, Nat.le_refl _, Nat.le_refl _, rfl,
      fun _ h => h, fun k h2 => ?_⟩
    have hkt : k ≠ s.hist.ticket t := by
      rintro rfl
      omega
    exact ⟨by rw [hrank, if_neg hkt]; exact h2, by rw [hgot, if_neg hkt]⟩
  · change (s.hist.record t (.got (s.hist.put (s.hist.ticket t)))).got (s.hist.ticket t) = _
    rw [hgot, if_pos rfl]
  · change (s.hist.record t (.got (s.hist.put (s.hist.ticket t)))).recvRank (s.hist.ticket t) = 2
    rw [hrank, if_pos rfl]

/-! ## `install_next_block` and the end of a block -/

/-- What linking a block behind `b` leaves behind, whether or not one was linked before. -/
structure Linked (ch ch' : Channel T) (b : Nat) : Prop where
  chain : Chain ch'
  fresh : ch.fresh ≤ ch'.fresh
  lt : b + 1 < ch'.fresh
  head : ch'.head = ch.head
  tail : ch'.tail = ch.tail
  slots : ∀ c i, c < ch'.fresh → (ch'.heap c).slots i =
    if c < ch.fresh then (ch.heap c).slots i else ⟨none, false⟩

omit [DecidableEq Tid] in
/-- A block and its next differ by exactly `BLOCK_CAP`, and only one is ever linked. -/
theorem linkNext_spec {ch : Channel T} (hc : Chain ch) (hb : b < ch.fresh) :
    (ch.linkNext b).2 = b + 1 ∧ Linked ch (ch.linkNext b).1 b := by
  have hnext := hc.next b hb
  by_cases hlt : b + 1 < ch.fresh
  · rw [if_pos hlt] at hnext
    have heq : ch.linkNext b = (ch, b + 1) := by
      simp only [Channel.linkNext, hnext]
    rw [heq]
    refine ⟨rfl, hc, Nat.le_refl _, hlt, rfl, rfl, fun c i h => ?_⟩
    rw [if_pos h]
  · rw [if_neg hlt] at hnext
    have hfresh : ch.fresh = b + 1 := by omega
    have heq : ch.linkNext b =
        ({ ch with
            heap := Function.update
              (Function.update ch.heap b { ch.heap b with next := some (b + 1) })
              (b + 1) (.new (blockCap * b + blockCap))
            fresh := b + 1 + 1 }, b + 1) := by
      simp only [Channel.linkNext, hnext, hfresh, hc.start b hb]
    rw [heq]
    have hne : ∀ c, c < b → c ≠ b ∧ c ≠ b + 1 := fun c h => ⟨by omega, by omega⟩
    refine ⟨rfl, ⟨fun c h => ?_, fun c h => ?_, ?_, ?_⟩, ?_, ?_, rfl, rfl, fun c i h => ?_⟩
    · rcases Nat.lt_trichotomy c b with hcb | rfl | hcb
      · simp only [Function.update_of_ne (hne c hcb).1, Function.update_of_ne (hne c hcb).2]
        exact hc.start c (by omega)
      · simp only [Function.update_of_ne (show c ≠ c + 1 by omega), Function.update_self]
        exact hc.start c hb
      · obtain rfl : c = b + 1 := by simp only at h; omega
        simp only [Function.update_self, Block.new]
        exact (Nat.mul_succ _ _).symm
    · rcases Nat.lt_trichotomy c b with hcb | rfl | hcb
      · simp only [Function.update_of_ne (hne c hcb).1, Function.update_of_ne (hne c hcb).2]
        rw [hc.next c (by omega), if_pos (by omega), if_pos (by omega)]
      · simp only [Function.update_of_ne (show c ≠ c + 1 by omega), Function.update_self]
        rw [if_pos (by omega)]
      · obtain rfl : c = b + 1 := by simp only at h; omega
        simp only [Function.update_self, Block.new]
        rw [if_neg (by omega)]
    · exact Nat.lt_of_lt_of_le hc.headBlock (by simp only; omega)
    · exact Nat.lt_of_lt_of_le hc.tailBlock (by simp only; omega)
    · simp only
      omega
    · exact Nat.lt_succ_self _
    · rw [hfresh]
      rcases Nat.lt_trichotomy c b with hcb | rfl | hcb
      · rw [if_pos (by omega)]
        simp only [Function.update_of_ne (hne c hcb).1, Function.update_of_ne (hne c hcb).2]
      · rw [if_pos (by omega)]
        simp only [Function.update_of_ne (show c ≠ c + 1 by omega), Function.update_self]
      · obtain rfl : c = b + 1 := by simp only at h; omega
        rw [if_neg (by omega)]
        simp only [Function.update_self, Block.new]

/-- The first CAS of `install_next_block`, by a sender or by a receiver. -/
theorem link (hi : Inv s) {pc : Pc T} {ch : Channel T} (hl : Linked s.chan ch b)
    (hs : pc.sendStage t = (s.pc t).sendStage t) (hr : pc.recvStage t = (s.pc t).recvStage t)
    (hret : ∀ c, pc.retiring = some c → (s.pc t).retiring = some c)
    (hp : PcOk { s with chan := ch, pc := Function.update s.pc t pc } t pc) :
    Inv { s with chan := ch, pc := Function.update s.pc t pc } where
  chain := hl.chain
  ends := by
    have hends := hi.ends
    constructor <;> simp only [hl.head, hl.tail]
    · exact hends.headIndex
    · exact hends.tailIndex
    · exact hends.headLow
    · exact hends.headHigh
    · exact hends.tailLow
    · exact hends.tailHigh
    · exact hends.ordered
  stages := hi.stages
  slot := by
    intro c i hc hi'
    rw [hl.slots c i hc]
    split
    · rename_i hlt
      exact hi.slot c i hlt hi'
    · -- a fresh block lies behind the tail
      rename_i hge
      have hsends : s.hist.sends ≤ blockCap * c + i := by
        have h1 := hi.ends.tailHigh
        have h2 := Nat.mul_le_mul_left blockCap
          (show s.chan.tail.block + 1 ≤ c from Nat.le_trans hi.chain.tailBlock (by omega))
        omega
      have h0 := mt (hi.stages.sends (blockCap * c + i)).mpr (by omega)
      exact (History.view_vacant (show s.hist.sendRank _ = 0 by omega)).symm
  senders := hi.senders_keep hs fun _ _ => rfl
  receivers := hi.receivers_keep hr fun _ _ => rfl
  retired := ⟨fun c => by rw [hl.tail]; exact hi.retired.moved c,
    fun c hc => by rw [hl.head]; exact hi.retired.destroyed c hc, hi.retired.once⟩
  retiring := hi.retiring_keep fun c hc => hi.retiring t c (hret c hc)
  pcs := by
    refine hi.pcs_le (fun u _ => ?_) hp
    exact ⟨Nat.le_of_eq (by rw [hl.tail]), Nat.le_of_eq (by rw [hl.head]), hl.fresh, Nat.le_refl _, Nat.le_refl _, rfl,
      fun _ h => h, fun _ h => ⟨h, rfl⟩⟩

omit [DecidableEq Tid] in
theorem casTailBlock_eq (ch : Channel T) (b next : Nat) :
    ch.casTailBlock b next =
      { ch with tail := ⟨ch.tail.index, if ch.tail.block = b then next else ch.tail.block⟩ } := by
  unfold Channel.casTailBlock
  split <;> rfl

omit [DecidableEq Tid] in
theorem casHeadBlock_eq (ch : Channel T) (b next : Nat) :
    ch.casHeadBlock b next =
      { ch with head := ⟨ch.head.index, if ch.head.block = b then next else ch.head.block⟩ } := by
  unfold Channel.casHeadBlock
  split <;> rfl

/-- The second CAS of `install_next_block` in `start_send`. Whether it succeeds or not, the
    tail has left the block afterwards. -/
theorem tailBlockCas (hi : Inv s) {next : Nat} {slot : Option Nat} {pc : Pc T}
    (hpc : s.pc t = .sendBlockCas b next slot)
    (hs : pc.sendStage t = (s.pc t).sendStage t) (hr : pc.recvStage t = none)
    (hret : pc.retiring = none) (hp : PcOk s t pc) :
    Inv { chan := s.chan.casTailBlock b next
          pc := Function.update s.pc t pc
          hist := s.hist.record t (.tailBlockCas b) } := by
  obtain ⟨hb, hsends, -, rfl, hfresh⟩ : PcOk s t (.sendBlockCas b next slot) := hpc ▸ hi.pcs t
  have hends := hi.ends
  rw [casTailBlock_eq]
  -- the new block of the tail
  obtain ⟨nb, hnb⟩ : ∃ nb, nb = if s.chan.tail.block = b then b + 1 else s.chan.tail.block :=
    ⟨_, rfl⟩
  rw [← hnb]
  have hge : s.chan.tail.block ≤ nb := by rw [hnb]; split <;> omega
  have hlow : blockCap * nb ≤ s.hist.sends := by
    rw [hnb]
    split
    · exact hsends
    · exact hends.tailLow
  have hle : ∀ u, Le u s
      { chan := { s.chan with tail := ⟨s.chan.tail.index, nb⟩ }
        pc := Function.update s.pc t pc
        hist := s.hist.record t (.tailBlockCas b) } := fun u =>
    ⟨hge, Nat.le_refl _, Nat.le_refl _, Nat.le_refl _, Nat.le_refl _, rfl, fun _ h => h,
      fun _ h => ⟨h, rfl⟩⟩
  refine
    { chain := ⟨hi.chain.start, hi.chain.next, hi.chain.headBlock, ?_⟩
      ends := ⟨hends.headIndex, hends.tailIndex, hends.headLow, hends.headHigh, hlow, ?_,
        hends.ordered⟩
      stages := ⟨hi.stages.sends, hi.stages.recvs, hi.stages.ready, hi.stages.put, hi.stages.got⟩
      slot := hi.slot
      senders := hi.senders_keep hs fun _ _ => rfl
      receivers := hi.receivers_keep (by rw [hr, hpc]; rfl) fun _ _ => rfl
      retired := ⟨fun c => ?_, hi.retired.destroyed, hi.retired.once⟩
      retiring := hi.retiring_keep fun c hc => absurd hc (by simp [hret])
      pcs := hi.pcs_le (fun u _ => hle u) (hp.mono (hle t)) }
  · change nb < s.chan.fresh
    rw [hnb]
    split
    · exact hfresh
    · exact hi.chain.tailBlock
  · exact Nat.le_trans hends.tailHigh (Nat.mul_le_mul_left _ (Nat.succ_le_succ hge))
  · change Function.update s.hist.moved b true c = true ↔ c < nb
    have hm := hi.retired.moved c
    rw [Function.update_apply, hnb]
    split <;> split <;> simp only [true_iff, hm] <;> omega

/-- The second CAS of `install_next_block` in `start_recv`. -/
theorem headBlockCas (hi : Inv s) {next : Nat} {slot : Option Nat} {pc : Pc T}
    (hpc : s.pc t = .recvBlockCas b next slot)
    (hs : pc.sendStage t = none) (hr : pc.recvStage t = (s.pc t).recvStage t)
    (hret : ∀ c, pc.retiring = some c → (s.pc t).retiring = some c)
    (hp : ∀ s' : State Tid T, Le t s s' → b < s'.chan.head.block → PcOk s' t pc) :
    Inv { s with chan := s.chan.casHeadBlock b next, pc := Function.update s.pc t pc } := by
  obtain ⟨hb, hrecvs, -, rfl, hfresh⟩ : PcOk s t (.recvBlockCas b next slot) := hpc ▸ hi.pcs t
  have hends := hi.ends
  rw [casHeadBlock_eq]
  obtain ⟨nb, hnb⟩ : ∃ nb, nb = if s.chan.head.block = b then b + 1 else s.chan.head.block :=
    ⟨_, rfl⟩
  rw [← hnb]
  have hge : s.chan.head.block ≤ nb := by rw [hnb]; split <;> omega
  have hleft : b < nb := by rw [hnb]; split <;> omega
  have hlow : blockCap * nb ≤ s.hist.recvs := by
    rw [hnb]
    split
    · exact hrecvs
    · exact hends.headLow
  have hle : ∀ u, Le u s
      { s with chan := { s.chan with head := ⟨s.chan.head.index, nb⟩ }
               pc := Function.update s.pc t pc } := fun u =>
    ⟨Nat.le_refl _, hge, Nat.le_refl _, Nat.le_refl _, Nat.le_refl _, rfl, fun _ h => h,
      fun _ h => ⟨h, rfl⟩⟩
  refine
    { chain := ⟨hi.chain.start, hi.chain.next, ?_, hi.chain.tailBlock⟩
      ends := ⟨hends.headIndex, hends.tailIndex, hlow, ?_, hends.tailLow, hends.tailHigh,
        hends.ordered⟩
      stages := hi.stages
      slot := hi.slot
      senders := hi.senders_keep (by rw [hs, hpc]; rfl) fun _ _ => rfl
      receivers := hi.receivers_keep hr fun _ _ => rfl
      retired := ⟨hi.retired.moved, fun c hc => ?_, hi.retired.once⟩
      retiring := hi.retiring_keep fun c hc => hi.retiring t c (hret c hc)
      pcs := hi.pcs_le (fun u _ => hle u) (hp _ (hle t) hleft) }
  · change nb < s.chan.fresh
    rw [hnb]
    split
    · exact hfresh
    · exact hi.chain.headBlock
  · exact Nat.le_trans hends.headHigh (Nat.mul_le_mul_left _ (Nat.succ_le_succ hge))
  · exact Nat.lt_of_lt_of_le (hi.retired.destroyed c hc) hge

/-- Handing the finished block to `defer_destroy`. -/
theorem destroy (hi : Inv s) (hpc : s.pc t = .recvDestroy b offset) :
    Inv { s with pc := Function.update s.pc t (.received (some (b, offset)))
                 hist := s.hist.record t (.destroy b) } := by
  obtain ⟨hb, hlast⟩ : PcOk s t (.recvDestroy b offset) := hpc ▸ hi.pcs t
  have hret : (s.pc t).retiring = some b := by rw [hpc]; rfl
  have hle : ∀ u, Le u s
      { s with pc := Function.update s.pc t (.received (some (b, offset)))
               hist := s.hist.record t (.destroy b) } := fun u =>
    ⟨Nat.le_refl _, Nat.le_refl _, Nat.le_refl _, Nat.le_refl _, Nat.le_refl _, rfl, fun _ h => h,
      fun _ h => ⟨h, rfl⟩⟩
  refine
    { chain := hi.chain
      ends := ⟨hi.ends.headIndex, hi.ends.tailIndex, hi.ends.headLow, hi.ends.headHigh,
        hi.ends.tailLow, hi.ends.tailHigh, hi.ends.ordered⟩
      stages := ⟨hi.stages.sends, hi.stages.recvs, hi.stages.ready, hi.stages.put, hi.stages.got⟩
      slot := hi.slot
      senders := hi.senders_keep (by rw [hpc]; rfl) fun _ _ => rfl
      receivers := hi.receivers_keep (by rw [hpc]; rfl) fun _ _ => rfl
      retired := ⟨hi.retired.moved, fun c hc => ?_, ?_⟩
      retiring := fun u c hu => ?_
      pcs := hi.pcs_le (fun u _ => hle u) ⟨?_, (hlast offset rfl).2⟩ }
  · rcases List.mem_cons.mp hc with rfl | hc
    · exact hb
    · exact hi.retired.destroyed c hc
  · exact List.nodup_cons.mpr ⟨hi.retiring t b hret, hi.retired.once⟩
  · by_cases hut : u = t
    · subst hut
      simp only [Function.update_self] at hu
      exact absurd hu (by simp [Pc.retiring])
    · simp only [Function.update_of_ne hut] at hu
      intro hmem
      rcases List.mem_cons.mp hmem with rfl | hmem
      · exact hut (hi.retiring_unique hu hret)
      · exact hi.retiring u c hu hmem
  · exact Nat.lt_trans hb hi.chain.headBlock

end

/-! ## All steps -/

/-- Entering a call, or taking its result, touches no shared word. -/
theorem call (hi : Inv s) {t : Tid} {c : Call T} {s' : State Tid T}
    (h : program.enter s t c = some s') : Inv s' := by
  obtain ⟨pc, hpc, rfl⟩ := Lib.Program.enter_eq_some h
  change (s.pc t).call c = some pc at hpc
  have hok := hi.pcs t
  have key : pc.sendStage t = (s.pc t).sendStage t ∧ pc.recvStage t = (s.pc t).recvStage t ∧
      pc.retiring = none ∧ PcOk s t pc := by
    revert hok hpc
    generalize s.pc t = p
    intro hpc hok
    unfold Pc.call at hpc
    split at hpc <;> cases hpc <;> exact ⟨rfl, rfl, rfl, by trivial⟩
  exact hi.setPc s.chan.isDisconnected key.1 key.2.1
    (fun b hb => absurd hb (by simp [key.2.2.1])) key.2.2.2

omit [DecidableEq Tid] in
theorem pc_eq {t : Tid} {pc : Pc T} (hpc : s.pc t = pc) (hi : Inv s) : PcOk s t pc :=
  hpc ▸ hi.pcs t

omit [DecidableEq Tid] in
/-- A step into the pc the loop of `start_send` branches to. -/
theorem sendBranch_spec {t : Tid} {b : Nat} (hi : Inv s) (hb : b ≤ s.chan.tail.block) :
    (sendBranch (s.chan.heap b) b s.chan.tail.index : Pc T).sendStage t = none ∧
      (sendBranch (s.chan.heap b) b s.chan.tail.index : Pc T).recvStage t = none ∧
      (sendBranch (s.chan.heap b) b s.chan.tail.index : Pc T).retiring = none ∧
      PcOk s t (sendBranch (s.chan.heap b) b s.chan.tail.index) := by
  have hstart := hi.chain.start b (Nat.lt_of_le_of_lt hb hi.chain.tailBlock)
  unfold sendBranch Block.offset
  rw [hstart, hi.ends.tailIndex]
  by_cases hle : blockCap * b ≤ s.hist.sends
  · simp only [if_pos hle]
    split
    · rename_i ho
      exact ⟨rfl, rfl, rfl, hb, ho, by omega⟩
    · split
      · rename_i ho
        exact ⟨rfl, rfl, rfl, hb, by rw [Nat.mul_succ]; omega, fun _ h => absurd h (by simp)⟩
      · exact ⟨rfl, rfl, rfl, trivial⟩
  · simp only [if_neg hle]
    exact ⟨rfl, rfl, rfl, trivial⟩

omit [DecidableEq Tid] in
/-- A step into the pc the loop of `start_recv` branches to. -/
theorem recvBranch_spec {t : Tid} {b : Nat} (hi : Inv s) (hb : b ≤ s.chan.head.block) :
    (recvBranch (s.chan.heap b) b s.chan.head.index : Pc T).sendStage t = none ∧
      (recvBranch (s.chan.heap b) b s.chan.head.index : Pc T).recvStage t = none ∧
      (recvBranch (s.chan.heap b) b s.chan.head.index : Pc T).retiring = none ∧
      PcOk s t (recvBranch (s.chan.heap b) b s.chan.head.index) := by
  have hstart := hi.chain.start b (Nat.lt_of_le_of_lt hb hi.chain.headBlock)
  unfold recvBranch Block.offset
  rw [hstart, hi.ends.headIndex]
  by_cases hle : blockCap * b ≤ s.hist.recvs
  · simp only [if_pos hle]
    split
    · rename_i ho
      exact ⟨rfl, rfl, rfl, hb, ho, by omega, Nat.le_refl _⟩
    · split
      · rename_i ho
        exact ⟨rfl, rfl, rfl, hb, by rw [Nat.mul_succ]; omega, fun _ h => absurd h (by simp)⟩
      · exact ⟨rfl, rfl, rfl, trivial⟩
  · simp only [if_neg hle]
    exact ⟨rfl, rfl, rfl, trivial⟩

omit [DecidableEq Tid] in
/-- What a ready slot says about its index. -/
theorem ready_slot (hi : Inv s) {b offset : Nat} (hb : b < s.chan.fresh) (ho : offset < blockCap)
    (h : ((s.chan.heap b).slots offset).ready = true) :
    s.hist.sendRank (blockCap * b + offset) = 3 := by
  rw [hi.slot b offset hb ho] at h
  simpa [History.view] using h

section

variable {t : Tid} {spurious : Bool} {ch : Channel T} {pc : Pc T} {ev : Event T}

/-- A step that touches no word of the channel is `setPc` once the local facts of its new place are
known. -/
theorem silent (hi : Inv s) {p p' : Pc T} (hp : s.pc t = p)
    (hs : p'.sendStage t = p.sendStage t) (hr : p'.recvStage t = p.recvStage t)
    (hret : p'.retiring = none) (hok : PcOk s t p') :
    Inv { s with pc := Function.update s.pc t p' } :=
  hi.setPc s.chan.isDisconnected (hs.trans (by rw [hp])) (hr.trans (by rw [hp]))
    (fun b hb => absurd hb (by simp [hret])) hok

/-- `start_send` links a new block behind the tail block, if nobody else has. -/
theorem run_sendNext (hi : Inv s) {b : Nat} {slot : Option Nat}
    (hp : s.pc t = .sendNext b slot)
    (hstep : s.chan.step spurious (.sendNext b slot) = some (ch, pc, ev)) :
    Inv { chan := ch, pc := Function.update s.pc t pc, hist := s.hist.record t ev } := by
  obtain ⟨hb, hs, hl⟩ := pc_eq hp hi
  rw [Channel.step] at hstep
  cases hstep
  obtain ⟨heq, hlink⟩ := linkNext_spec hi.chain (Nat.lt_of_le_of_lt hb hi.chain.tailBlock)
  rw [heq]
  refine hi.link hlink ?_ ?_ ?_ ⟨?_, hs, hl, rfl, hlink.lt⟩
  · rw [hp]
    cases slot <;> rfl
  · rw [hp]
    rfl
  · rw [hp]
    exact fun c hc => hc
  · rw [hlink.tail]
    exact hb

/-- `start_send` moves `tail.block` on to the next block, for whoever has taken the last slot. -/
theorem run_sendBlockCas (hi : Inv s) {b next : Nat} {slot : Option Nat}
    (hp : s.pc t = .sendBlockCas b next slot)
    (hstep : s.chan.step spurious (.sendBlockCas b next slot) = some (ch, pc, ev)) :
    Inv { chan := ch, pc := Function.update s.pc t pc, hist := s.hist.record t ev } := by
  obtain ⟨hb, hs, hl, rfl, hf⟩ := pc_eq hp hi
  rw [Channel.step] at hstep
  cases hstep
  cases slot with
  | none => exact hi.tailBlockCas hp (by rw [hp]; rfl) rfl rfl trivial
  | some offset =>
    exact hi.tailBlockCas hp (by rw [hp]; rfl) rfl rfl ⟨by omega, (hl offset rfl).2⟩

/-- `start_recv` looks whether the slot is ready. If it is, a sender has taken its position. -/
theorem run_recvReady (hi : Inv s) {b index offset : Nat}
    (hp : s.pc t = .recvReady b index offset)
    (hstep : s.chan.step spurious (.recvReady b index offset) = some (ch, pc, ev)) :
    Inv { chan := ch, pc := Function.update s.pc t pc, hist := s.hist.record t ev } := by
  have hok := pc_eq hp hi
  obtain ⟨hb, ho, hk, hle⟩ := pc_eq hp hi
  rw [Channel.step] at hstep
  split at hstep <;> cases hstep
  · rename_i hready
    have h3 := hi.ready_slot (Nat.lt_of_le_of_lt hb hi.chain.headBlock) ho hready
    have hlt := (hi.stages.sends _).mpr (show 1 ≤ s.hist.sendRank (blockCap * b + offset) by omega)
    exact hi.silent hp rfl rfl rfl ⟨hb, ho, hk, by omega⟩
  · exact hi.silent hp rfl rfl rfl hok

/-- `start_recv` compares with the tail: if they differ, there is a sender ahead of it. -/
theorem run_recvTail (hi : Inv s) {b index offset : Nat}
    (hp : s.pc t = .recvTail b index offset)
    (hstep : s.chan.step spurious (.recvTail b index offset) = some (ch, pc, ev)) :
    Inv { chan := ch, pc := Function.update s.pc t pc, hist := s.hist.record t ev } := by
  obtain ⟨hb, ho, hk, hle⟩ := pc_eq hp hi
  rw [Channel.step] at hstep
  split at hstep <;> cases hstep
  · rename_i heq
    exact hi.silent hp rfl rfl rfl ⟨hb, ho, hk, hle, heq⟩
  · rename_i hne
    rw [hi.ends.tailIndex] at hne
    have := hi.ends.ordered
    exact hi.silent hp rfl rfl rfl ⟨hb, ho, hk, by omega⟩

/-- `start_recv` compares with the tail again, after the look at the flag. -/
theorem run_recvTailAgain (hi : Inv s) {b index offset tail : Nat}
    (hp : s.pc t = .recvTailAgain b index offset tail)
    (hstep : s.chan.step spurious (.recvTailAgain b index offset tail) = some (ch, pc, ev)) :
    Inv { chan := ch, pc := Function.update s.pc t pc, hist := s.hist.record t ev } := by
  obtain ⟨hb, ho, hk, hle, heq⟩ := pc_eq hp hi
  rw [Channel.step] at hstep
  split at hstep <;> cases hstep
  · exact hi.silent hp rfl rfl rfl trivial
  · rename_i hne
    rw [hi.ends.tailIndex] at hne
    have := hi.ends.ordered
    exact hi.silent hp rfl rfl rfl ⟨hb, ho, hk, by omega⟩

/-- `start_recv` links a new block behind the head block, if nobody else has. -/
theorem run_recvNext (hi : Inv s) {b : Nat} {slot : Option Nat}
    (hp : s.pc t = .recvNext b slot)
    (hstep : s.chan.step spurious (.recvNext b slot) = some (ch, pc, ev)) :
    Inv { chan := ch, pc := Function.update s.pc t pc, hist := s.hist.record t ev } := by
  obtain ⟨hb, hs, hl⟩ := pc_eq hp hi
  rw [Channel.step] at hstep
  cases hstep
  obtain ⟨heq, hlink⟩ := linkNext_spec hi.chain (Nat.lt_of_le_of_lt hb hi.chain.headBlock)
  rw [heq]
  refine hi.link hlink ?_ ?_ ?_ ⟨?_, hs, hl, rfl, hlink.lt⟩
  · rw [hp]
    rfl
  · rw [hp]
    cases slot <;> rfl
  · rw [hp]
    cases slot <;> exact fun c hc => hc
  · rw [hlink.head]
    exact hb

/-- `start_recv` moves `head.block` on to the next block. -/
theorem run_recvBlockCas (hi : Inv s) {b next : Nat} {slot : Option Nat}
    (hp : s.pc t = .recvBlockCas b next slot)
    (hstep : s.chan.step spurious (.recvBlockCas b next slot) = some (ch, pc, ev)) :
    Inv { chan := ch, pc := Function.update s.pc t pc, hist := s.hist.record t ev } := by
  obtain ⟨hb, hs, hl, rfl, hf⟩ := pc_eq hp hi
  rw [Channel.step] at hstep
  cases hstep
  cases slot with
  | none =>
    exact hi.headBlockCas hp rfl (by rw [hp]; rfl)
      (fun c hc => absurd hc (by simp [Pc.retiring, recvInstalled])) fun _ _ _ => trivial
  | some offset =>
    exact hi.headBlockCas hp rfl (by rw [hp]; rfl) (fun c hc => by rw [hp]; exact hc)
      fun s' hle hlt => ⟨hlt, hle.last hl⟩

end

/-- **One atomic step keeps the invariant.** -/
theorem run (hi : Inv s) {t : Tid} {spurious : Bool} {s' : State Tid T}
    (h : program.run s t spurious = some s') : Inv s' := by
  obtain ⟨ch, pc, ev, hstep, rfl⟩ := Lib.Program.run_eq_some h
  change s.chan.step spurious (s.pc t) = some (ch, pc, ev) at hstep
  cases hp : s.pc t with
  | sendDisconnected =>
    rw [hp, Channel.step] at hstep
    split at hstep <;> cases hstep
    · exact hi.silent hp rfl rfl rfl trivial
    · exact hi.silent hp rfl rfl rfl trivial
  | sendBlock =>
    rw [hp, Channel.step] at hstep
    cases hstep
    exact hi.silent hp rfl rfl rfl (Nat.le_refl s.chan.tail.block)
  | sendIndex b =>
    rw [hp, Channel.step] at hstep
    cases hstep
    obtain ⟨h1, h2, h3, h4⟩ := hi.sendBranch_spec (t := t) (pc_eq hp hi)
    exact hi.silent hp h1 h2 h3 h4
  | sendCas b index offset =>
    rw [hp, Channel.step] at hstep
    split at hstep <;> cases hstep
    · rename_i hcas
      exact hi.tailCas hp hcas.1
    · exact hi.silent hp rfl rfl rfl trivial
  | sendNext b slot => exact hi.run_sendNext hp (hp ▸ hstep)
  | sendBlockCas b next slot => exact hi.run_sendBlockCas hp (hp ▸ hstep)
  | writeMsg b offset msg =>
    rw [hp, Channel.step] at hstep
    cases hstep
    exact hi.put_msg hp
  | writeReady b offset =>
    rw [hp, Channel.step] at hstep
    cases hstep
    exact hi.publish hp
  | recvBlock =>
    rw [hp, Channel.step] at hstep
    cases hstep
    exact hi.silent hp rfl rfl rfl (Nat.le_refl s.chan.head.block)
  | recvIndex b =>
    rw [hp, Channel.step] at hstep
    cases hstep
    obtain ⟨h1, h2, h3, h4⟩ := hi.recvBranch_spec (t := t) (pc_eq hp hi)
    exact hi.silent hp h1 h2 h3 h4
  | recvReady b index offset => exact hi.run_recvReady hp (hp ▸ hstep)
  | recvTail b index offset => exact hi.run_recvTail hp (hp ▸ hstep)
  | recvDisconnected b index offset tail =>
    have hok := pc_eq hp hi
    rw [hp, Channel.step] at hstep
    split at hstep <;> cases hstep
    · exact hi.silent hp rfl rfl rfl hok
    · exact hi.silent hp rfl rfl rfl trivial
  | recvTailAgain b index offset tail => exact hi.run_recvTailAgain hp (hp ▸ hstep)
  | recvCas b index offset =>
    rw [hp, Channel.step] at hstep
    split at hstep <;> cases hstep
    · rename_i hcas
      exact hi.headCas hp hcas.1
    · exact hi.silent hp rfl rfl rfl trivial
  | recvNext b slot => exact hi.run_recvNext hp (hp ▸ hstep)
  | recvBlockCas b next slot => exact hi.run_recvBlockCas hp (hp ▸ hstep)
  | recvDestroy b offset =>
    rw [hp, Channel.step] at hstep
    cases hstep
    exact hi.destroy hp
  | readReady b offset =>
    obtain ⟨hb, hat⟩ := pc_eq hp hi
    rw [hp, Channel.step] at hstep
    split at hstep <;> cases hstep
    · rename_i hready
      have h3 := hi.ready_slot hb hat.1 hready
      exact hi.silent hp rfl rfl rfl ⟨hb, hat, by rw [hat.2]; exact h3⟩
    · exact hi.silent hp rfl rfl rfl ⟨hb, hat⟩
  | readMsg b offset =>
    rw [hp, Channel.step] at hstep
    cases hstep
    exact hi.got_msg hp
  | emptyHead =>
    rw [hp, Channel.step] at hstep
    cases hstep
    exact hi.silent hp rfl rfl rfl (Nat.le_of_eq hi.ends.headIndex)
  | lenTailAgain tail head =>
    rw [hp, Channel.step] at hstep
    split at hstep <;> cases hstep
    · exact hi.silent hp rfl rfl rfl trivial
    · exact hi.silent hp rfl rfl rfl trivial
  | disconnectSwap =>
    rw [hp, Channel.step] at hstep
    cases hstep
    exact hi.setPc true (by rw [hp]; rfl) (by rw [hp]; rfl)
      (fun b hb => absurd hb (by simp [Pc.retiring])) trivial
  | emptyTail head | lenTail | lenHead tail | disconnectedLoad =>
    rw [hp, Channel.step] at hstep
    cases hstep
    exact hi.silent hp rfl rfl rfl trivial
  | _ => simp [hp, Channel.step] at hstep

end Inv

theorem Inv.init : Inv (State.init : State Tid T) where
  chain :=
    { start := fun b hb => by
        obtain rfl : b = 0 := Nat.lt_one_iff.mp hb
        rfl
      next := fun b _ => (if_neg (by simp [State.init, Channel.new])).symm
      headBlock := Nat.one_pos
      tailBlock := Nat.one_pos }
  ends := ⟨rfl, rfl, Nat.le_refl _, Nat.zero_le _, Nat.le_refl _, Nat.zero_le _, Nat.le_refl _⟩
  stages :=
    { sends := fun k => iff_of_false (Nat.not_lt_zero k) (Nat.not_succ_le_zero 0)
      recvs := fun k => iff_of_false (Nat.not_lt_zero k) (Nat.not_succ_le_zero 0)
      ready := fun k hk => absurd hk (Nat.zero_ne_add_one 1)
      put := fun k => iff_of_false (by simp [State.init, History.empty]) (Nat.not_succ_le_zero 1)
      got := fun _ => rfl }
  slot := fun _ _ _ _ => rfl
  senders := ⟨fun _ _ h => absurd h (by simp [State.init, Pc.sendStage]),
    fun _ _ h => absurd h (by simp [State.init, History.empty, SendStage.owner]),
    fun _ _ => Pc.sendStage_owner⟩
  receivers := ⟨fun _ _ h => absurd h (by simp [State.init, Pc.recvStage]),
    fun _ _ h => absurd h (by simp [State.init, History.empty, RecvStage.owner]),
    fun _ _ => Pc.recvStage_owner⟩
  retired := ⟨fun b => iff_of_false (by simp [State.init, History.empty]) (Nat.not_lt_zero b),
    fun _ h => absurd h List.not_mem_nil, List.nodup_nil⟩
  retiring := fun _ _ h => absurd h (by simp [State.init, Pc.retiring])
  pcs := fun _ => trivial

/-- **Every reachable state satisfies the invariant.** -/
theorem inv_reachable [DecidableEq Tid] {s : State Tid T} (hs : system.Reachable s) : Inv s := by
  refine hs.invariant (fun s0 h0 => ?_) fun s0 l s1 _ hi hstep => ?_
  · obtain rfl := h0
    exact .init
  · cases l with
    | call t c => exact hi.call hstep
    | run t spurious => exact hi.run hstep

end CrossbeamChannel.ListFlavor
