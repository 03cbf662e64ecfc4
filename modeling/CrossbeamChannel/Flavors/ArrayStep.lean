import CrossbeamChannel.Flavors.ArrayInv

/-!
# Every atomic step of the array flavor keeps the invariant

One lemma per event. A silent step changes a program counter only (`Inv.setPc`); each of the
six others moves one position to its next stage, and `Inv.move` is the part they share: who
owns which position, and that the other threads' local facts survive.
-/

namespace CrossbeamChannel.ArrayFlavor

variable {Tid T : Type} [DecidableEq Tid]

omit [DecidableEq Tid] in
theorem Pc.stage_owner {t : Tid} {pc : Pc T} {st : Stage Tid} (h : pc.stage t = some st) :
    st.owner = some t := by
  unfold Pc.stage at h
  split at h <;> first | (obtain rfl := Option.some.inj h; rfl) | exact absurd h (by simp)

namespace Inv

variable {s : State Tid T}

/-- A silent step: only the pc of `t` (and perhaps the flag) changes. -/
theorem setPc (hi : Inv s) {t : Tid} {pc : Pc T} (flag : Bool)
    (hst : pc.stage t = (s.pc t).stage t)
    (hp : PcOk s.chan.cap s.chan.oneLap s.hist t pc) :
    Inv { s with chan := { s.chan with isDisconnected := flag },
                 pc := Function.update s.pc t pc } where
  geo := ⟨hi.geo.pos, hi.geo.le, hi.geo.pow, hi.geo.wrap⟩
  head := hi.head
  tail := hi.tail
  sends := hi.sends
  recvs := hi.recvs
  free := hi.free
  slot := hi.slot
  put := hi.put
  got := hi.got
  tickets := by
    refine hi.tickets.keep (fun u => ?_) fun _ _ => rfl
    by_cases hut : u = t
    · subst hut
      simp only [Function.update_self, hst]
    · simp only [Function.update_of_ne hut]
  pcs := by
    intro u
    by_cases hut : u = t
    · subst hut
      simpa only [Function.update_self] using hp
    · simpa only [Function.update_of_ne hut] using hi.pcs u

/-- What a step that moves position `k` from the hands of `t`, or from nobody's, leaves
    behind. -/
structure Moved (s : State Tid T) (t : Tid) (pc : Pc T) (k : Nat) (st : Stage Tid)
    (h' : History Tid T) : Prop where
  stage : h'.stage = Function.update s.hist.stage k st
  ticket : h'.ticket = Function.update s.hist.ticket t k
  sends : s.hist.sends ≤ h'.sends
  recvs : s.hist.recvs ≤ h'.recvs
  /-- What was read is never read again. -/
  got : ∀ j, 5 ≤ s.hist.rankAt j → h'.got j = s.hist.got j
  rank : s.hist.rankAt k < st.rank
  /-- `t` held the position, or nobody did and `t` held none. -/
  old : ((s.hist.stage k).owner = some t ∧ s.hist.ticket t = k) ∨
    ((s.hist.stage k).owner = none ∧ (s.pc t).stage t = none)
  new : (st.owner = some t ∧ pc.stage t = some st) ∨ (st.owner = none ∧ pc.stage t = none)

theorem Moved.rankAt {t : Tid} {pc : Pc T} {k : Nat} {st : Stage Tid} {h' : History Tid T}
    (hm : Moved s t pc k st h') (j : Nat) :
    h'.rankAt j = if j = k then st.rank else s.hist.rankAt j := by
  simp only [History.rankAt, hm.stage, Function.update_apply]
  split <;> rfl

theorem Moved.tickets (hi : Inv s) {t : Tid} {pc : Pc T} {k : Nat} {st : Stage Tid}
    {h' : History Tid T} (hm : Moved s t pc k st h') :
    Lib.Tickets Stage.owner h'.stage h'.ticket
      fun u => (Function.update s.pc t pc u).stage u := by
  rw [hm.stage, hm.ticket]
  refine hi.tickets.move (fun u hut => ?_) hm.old ?_
  · simp only [Function.update_of_ne hut]
  · simpa only [Function.update_self] using hm.new

omit [DecidableEq Tid] in
theorem rank_eq_zero {h : History Tid T} {k : Nat} (h0 : h.rankAt k = 0) :
    h.stage k = .vacant := by
  cases hs : h.stage k <;> simp [History.rankAt, hs] at h0
  rfl

omit [DecidableEq Tid] in
theorem rank_eq_three {h : History Tid T} {k : Nat} (h3 : h.rankAt k = 3) :
    h.stage k = .published := by
  cases hs : h.stage k <;> simp [History.rankAt, hs] at h3
  rfl

section

variable {t : Tid} {pc : Pc T} {k : Nat} {st : Stage Tid} {h' : History Tid T}

theorem Moved.rank_le (hm : Moved s t pc k st h') (j : Nat) : s.hist.rankAt j ≤ h'.rankAt j := by
  rw [hm.rankAt]
  have := hm.rank
  split
  · subst j; omega
  · exact Nat.le_refl _

theorem Moved.le (hm : Moved s t pc k st h') {u : Tid} (hut : u ≠ t) : s.hist.Le u h' where
  sends := hm.sends
  recvs := hm.recvs
  rank := hm.rank_le
  ticket := by rw [hm.ticket, Function.update_of_ne hut]
  got := hm.got _

theorem Moved.free (hm : Moved s t pc k st h') {cap j : Nat} (hf : s.hist.Free cap j) :
    h'.Free cap j := by
  refine hf.imp id fun h6 => ?_
  have h1 := hm.rank_le (j - cap)
  have h2 := h'.rank_le (j - cap)
  omega

/-- The counts still delimit the stages when they did not move. -/
theorem Moved.count_iff (hm : Moved s t pc k st h') {n b : Nat}
    (hn : ∀ j, j < n ↔ b ≤ s.hist.rankAt j) (hk : b ≤ s.hist.rankAt k ∨ st.rank < b) (j : Nat) :
    j < n ↔ b ≤ h'.rankAt j := by
  have hr := hm.rank
  rw [hn j, hm.rankAt]
  split
  · subst j; omega
  · exact Iff.rfl

/-- The counts still delimit the stages when one of them passed the position. -/
theorem Moved.count_succ_iff (hm : Moved s t pc k st h') {b : Nat}
    (hn : ∀ j, j < k ↔ b ≤ s.hist.rankAt j) (hk : b ≤ st.rank) (j : Nat) :
    j < k + 1 ↔ b ≤ h'.rankAt j := by
  rw [hm.rankAt]
  split
  · subst j; omega
  · rw [← hn j]; omega

theorem Moved.put_iff (hi : Inv s) (hm : Moved s t pc k st h')
    (hput : ∀ j, j ≠ k → h'.put j = s.hist.put j)
    (hk : (h'.put k).isSome ↔ 2 ≤ st.rank) (j : Nat) :
    (h'.put j).isSome ↔ 2 ≤ h'.rankAt j := by
  rw [hm.rankAt]
  split
  · subst j; exact hk
  · rename_i hjk
    rw [hput j hjk, hi.put]

theorem Moved.got_eq (hi : Inv s) (hm : Moved s t pc k st h')
    (hput : ∀ j, j ≠ k → h'.put j = s.hist.put j)
    (hgot : ∀ j, j ≠ k → h'.got j = s.hist.got j)
    (hk : h'.got k = if 5 ≤ st.rank then h'.put k else none) (j : Nat) :
    h'.got j = if 5 ≤ h'.rankAt j then h'.put j else none := by
  rw [hm.rankAt]
  by_cases hjk : j = k
  · subst hjk
    rw [if_pos rfl]
    exact hk
  · rw [if_neg hjk, hput j hjk, hgot j hjk, hi.got]

/-- The slots after a move that does not release the position. -/
theorem slot_moved (hi : Inv s) (hm : Moved s t pc k st h') (hst : st.rank ≠ 6)
    (hf : s.hist.Free s.chan.cap k) {buf : Nat → Slot T}
    (hbuf : ∀ i, i ≠ k % s.chan.cap → buf i = s.chan.buffer i)
    (hput : ∀ j, j ≠ k → h'.put j = s.hist.put j)
    (hk : s.chan.buffer (k % s.chan.cap) = s.hist.view s.chan.cap s.chan.oneLap k →
      buf (k % s.chan.cap) = h'.view s.chan.cap s.chan.oneLap k)
    (j : Nat) (hj : h'.Live s.chan.cap j) :
    buf (j % s.chan.cap) = h'.view s.chan.cap s.chan.oneLap j := by
  have hlk : s.hist.Live s.chan.cap k := ⟨by
    have := hm.rank
    have : st.rank ≤ 6 := by cases st <;> simp
    omega, hf⟩
  by_cases hjk : j = k
  · subst hjk
    exact hk (hi.slot j hlk)
  · have hrj : h'.rankAt j = s.hist.rankAt j := by rw [hm.rankAt, if_neg hjk]
    have hlj : s.hist.Live s.chan.cap j := by
      refine ⟨hrj ▸ hj.1, hj.2.imp id fun h6 => ?_⟩
      rw [hm.rankAt] at h6
      split at h6
      · exact absurd h6 hst
      · exact h6
    rw [hbuf _ (fun hmod => hjk (hi.live_unique hlj hlk hmod)), hi.slot j hlj]
    unfold History.view
    rw [hrj, hput j hjk]

/-- Putting a moved state together. -/
theorem move (hi : Inv s) (hm : Moved s t pc k st h') {ch : Channel T}
    (hcap : ch.cap = s.chan.cap) (hlap : ch.oneLap = s.chan.oneLap)
    (hwrap : ch.wrap = s.chan.wrap)
    (hhead : ch.head = headStamp s.chan.cap s.chan.oneLap h'.recvs)
    (htail : ch.tail = tailStamp s.chan.cap s.chan.oneLap h'.sends)
    (hsends : ∀ j, j < h'.sends ↔ 1 ≤ h'.rankAt j)
    (hrecvs : ∀ j, j < h'.recvs ↔ 4 ≤ h'.rankAt j)
    (hfree : ∀ j, j < h'.sends → h'.Free s.chan.cap j)
    (hslot : ∀ j, h'.Live s.chan.cap j →
      ch.buffer (j % s.chan.cap) = h'.view s.chan.cap s.chan.oneLap j)
    (hput : ∀ j, (h'.put j).isSome ↔ 2 ≤ h'.rankAt j)
    (hgot : ∀ j, h'.got j = if 5 ≤ h'.rankAt j then h'.put j else none)
    (hpc : PcOk s.chan.cap s.chan.oneLap h' t pc) :
    Inv { chan := ch, pc := Function.update s.pc t pc, hist := h' } where
  geo := ⟨hcap ▸ hi.geo.pos, by rw [hcap, hlap]; exact hi.geo.le, hlap ▸ hi.geo.pow,
    hwrap.trans hi.geo.wrap⟩
  head := by rw [hhead, hcap, hlap]
  tail := by rw [htail, hcap, hlap]
  sends := hsends
  recvs := hrecvs
  free := by simpa only [hcap] using hfree
  slot := by simpa only [hcap, hlap] using hslot
  put := hput
  got := hgot
  tickets := hm.tickets hi
  pcs := by
    intro u
    simp only [hcap, hlap]
    by_cases hut : u = t
    · subst hut
      simpa only [Function.update_self] using hpc
    · rw [Function.update_of_ne hut]
      exact (hi.pcs u).mono (hm.le hut) (hi.tickets.own u)

end

/-! ## The six events -/

/-- A successful tail CAS reserves the next position. -/
theorem tailCas (hi : Inv s) {t : Tid} {k : Nat} (hf : s.hist.Free s.chan.cap k)
    (htail : s.chan.tail = tailStamp s.chan.cap s.chan.oneLap k)
    (hpc : (s.pc t).stage t = none) :
    Inv { chan := { s.chan with tail := s.chan.advance s.chan.tail }
          pc := Function.update s.pc t
            (.sent ⟨some (s.chan.index s.chan.tail), s.chan.tail + s.chan.oneLap⟩)
          hist := s.hist.record t .tailCas } := by
  have hg := hi.geo
  obtain rfl : k = s.hist.sends := by
    rw [hi.tail, tailStamp_inj hg.pos hg.le] at htail
    exact htail.symm
  have hvac : s.hist.rankAt s.hist.sends = 0 := by
    have := mt (hi.sends s.hist.sends).mpr (by omega)
    omega
  have hm : Moved s t (.sent ⟨some (s.chan.index s.chan.tail), s.chan.tail + s.chan.oneLap⟩)
      s.hist.sends (.reserved t) (s.hist.record t .tailCas) :=
    { stage := rfl
      ticket := rfl
      sends := Nat.le_succ _
      recvs := Nat.le_refl _
      got := fun _ _ => rfl
      rank := by rw [hvac]; exact Nat.one_pos
      old := .inr ⟨by rw [rank_eq_zero hvac]; rfl, hpc⟩
      new := .inl ⟨rfl, rfl⟩ }
  refine hi.move hm rfl rfl rfl hi.head ?_ (hm.count_succ_iff hi.sends (by simp))
    (hm.count_iff hi.recvs (by simp)) ?_
    (hi.slot_moved hm (by simp) hf (fun _ _ => rfl) (fun _ _ => rfl) ?_) ?_ ?_ ?_
  · change s.chan.advance s.chan.tail = tailStamp _ _ (s.hist.sends + 1)
    rw [hi.tail, hg.advance_tailStamp]
  · intro j hj
    change j < s.hist.sends + 1 at hj
    apply hm.free
    rcases Nat.lt_or_ge j s.hist.sends with hlt | hge
    · exact hi.free j hlt
    · obtain rfl : j = s.hist.sends := by omega
      exact hf
  · intro hk
    rw [hk]
    unfold History.view
    rw [hm.rankAt, if_pos rfl, hvac]
    simp
  · refine hm.put_iff hi (fun _ _ => rfl) ?_
    change (s.hist.put s.hist.sends).isSome ↔ _
    rw [hi.put, hvac]
    simp
  · refine hm.got_eq hi (fun _ _ => rfl) (fun _ _ => rfl) ?_
    change s.hist.got s.hist.sends = _
    rw [hi.got, hvac]
    simp
  · change s.chan.index s.chan.tail = _ ∧ s.chan.tail + s.chan.oneLap = _
    simp only [History.record, Function.update_self]
    rw [hi.tail, hg.index_tailStamp, tailStamp_add]
    exact ⟨rfl, rfl⟩

/-- A successful head CAS claims the next position. -/
theorem headCas (hi : Inv s) {t : Tid} {k : Nat} (h3 : 3 ≤ s.hist.rankAt k)
    (hhead : s.chan.head = headStamp s.chan.cap s.chan.oneLap k)
    (hpc : (s.pc t).stage t = none) :
    Inv { chan := { s.chan with head := s.chan.advance s.chan.head }
          pc := Function.update s.pc t
            (.received ⟨some (s.chan.index s.chan.head), s.chan.head + s.chan.oneLap⟩)
          hist := s.hist.record t .headCas } := by
  have hg := hi.geo
  obtain rfl : k = s.hist.recvs := by
    rw [hi.head, headStamp_inj hg.pos hg.le] at hhead
    exact hhead.symm
  have hpub : s.hist.rankAt s.hist.recvs = 3 := by
    have := mt (hi.recvs s.hist.recvs).mpr (by omega)
    omega
  have hm : Moved s t
      (.received ⟨some (s.chan.index s.chan.head), s.chan.head + s.chan.oneLap⟩)
      s.hist.recvs (.claimed t) (s.hist.record t .headCas) :=
    { stage := rfl
      ticket := rfl
      sends := Nat.le_refl _
      recvs := Nat.le_succ _
      got := fun _ _ => rfl
      rank := by rw [hpub]; exact Nat.lt_succ_self 3
      old := .inr ⟨by rw [rank_eq_three hpub]; rfl, hpc⟩
      new := .inl ⟨rfl, rfl⟩ }
  have hlt : s.hist.recvs < s.hist.sends := (hi.sends _).mpr (by omega)
  refine hi.move hm rfl rfl rfl ?_ hi.tail (hm.count_iff hi.sends (by omega))
    (hm.count_succ_iff hi.recvs (by simp)) (fun j hj => hm.free (hi.free j hj))
    (hi.slot_moved hm (by simp) (hi.free _ hlt) (fun _ _ => rfl) (fun _ _ => rfl) ?_) ?_ ?_ ?_
  · change s.chan.advance s.chan.head = headStamp _ _ (s.hist.recvs + 1)
    rw [hi.head, hg.advance_headStamp]
  · intro hk
    rw [hk]
    unfold History.view
    rw [hm.rankAt, if_pos rfl, hpub]
    simp [History.record]
  · refine hm.put_iff hi (fun _ _ => rfl) ?_
    change (s.hist.put s.hist.recvs).isSome ↔ _
    rw [hi.put, hpub]
    simp
  · refine hm.got_eq hi (fun _ _ => rfl) (fun _ _ => rfl) ?_
    change s.hist.got s.hist.recvs = _
    rw [hi.got, hpub]
    simp
  · change s.chan.index s.chan.head = _ ∧ s.chan.head + s.chan.oneLap = _
    simp only [History.record, Function.update_self]
    rw [hi.head, hg.index_headStamp, headStamp_add hg.pos]
    exact ⟨rfl, rfl⟩

section

variable {t : Tid} {i stamp : Nat}

omit [DecidableEq Tid] in
theorem held_free (hi : Inv s) (h1 : 1 ≤ s.hist.rankAt (s.hist.ticket t)) :
    s.hist.Free s.chan.cap (s.hist.ticket t) := hi.free _ ((hi.sends _).mpr h1)

/-- Writing the message into the slot. -/
theorem put_msg (hi : Inv s) {msg : T} (hpc : s.pc t = .writeMsg i stamp msg) :
    Inv { chan := s.chan.setMsg i (some msg)
          pc := Function.update s.pc t (.writeStamp i stamp)
          hist := s.hist.record t (.put msg) } := by
  obtain ⟨hst, how⟩ := hi.tickets.held_owner (show (s.pc t).stage t = some (.reserved t) by rw [hpc]; rfl)
  have hr : s.hist.rankAt (s.hist.ticket t) = 1 := by rw [History.rankAt, hst]; rfl
  have hok := hi.pcs t
  rw [hpc] at hok
  obtain ⟨rfl, rfl⟩ := hok
  have hm : Moved s t
      (.writeStamp (s.hist.ticket t % s.chan.cap)
        (headStamp s.chan.cap s.chan.oneLap (s.hist.ticket t)))
      (s.hist.ticket t) (.stored t) (s.hist.record t (.put msg)) :=
    { stage := rfl
      ticket := (Function.update_eq_self _ _).symm
      sends := Nat.le_refl _
      recvs := Nat.le_refl _
      got := fun _ _ => rfl
      rank := by rw [hr]; exact Nat.lt_succ_self 1
      old := .inl ⟨how, rfl⟩
      new := .inl ⟨rfl, rfl⟩ }
  have hput : ∀ j, j ≠ s.hist.ticket t →
      (s.hist.record t (.put msg)).put j = s.hist.put j := fun j hj =>
    Function.update_of_ne hj _ _
  refine hi.move hm rfl rfl rfl hi.head hi.tail (hm.count_iff hi.sends (by omega))
    (hm.count_iff hi.recvs (by simp)) (fun j hj => hm.free (hi.free j hj))
    (hi.slot_moved hm (by simp) (hi.held_free (by omega))
      (fun j hj => Function.update_of_ne hj _ _) hput ?_) ?_ ?_ ⟨rfl, rfl⟩
  · intro hk
    simp only [Channel.setMsg, Function.update_self, hk]
    unfold History.view
    rw [hm.rankAt, if_pos rfl, hr]
    simp [History.record]
  · refine hm.put_iff hi hput ?_
    simp [History.record]
  · refine hm.got_eq hi hput (fun _ _ => rfl) ?_
    change s.hist.got _ = _
    rw [hi.got, hr]
    simp

/-- Storing the stamp that hands the slot to the receivers. -/
theorem publish (hi : Inv s) (hpc : s.pc t = .writeStamp i stamp) :
    Inv { chan := s.chan.setStamp i stamp
          pc := Function.update s.pc t .written
          hist := s.hist.record t .publish } := by
  obtain ⟨hst, how⟩ := hi.tickets.held_owner (show (s.pc t).stage t = some (.stored t) by rw [hpc]; rfl)
  have hr : s.hist.rankAt (s.hist.ticket t) = 2 := by rw [History.rankAt, hst]; rfl
  have hok := hi.pcs t
  rw [hpc] at hok
  obtain ⟨rfl, rfl⟩ := hok
  have hm : Moved s t .written (s.hist.ticket t) .published (s.hist.record t .publish) :=
    { stage := rfl
      ticket := (Function.update_eq_self _ _).symm
      sends := Nat.le_refl _
      recvs := Nat.le_refl _
      got := fun _ _ => rfl
      rank := by rw [hr]; exact Nat.lt_succ_self 2
      old := .inl ⟨how, rfl⟩
      new := .inr ⟨rfl, rfl⟩ }
  refine hi.move hm rfl rfl rfl hi.head hi.tail (hm.count_iff hi.sends (by omega))
    (hm.count_iff hi.recvs (by simp)) (fun j hj => hm.free (hi.free j hj))
    (hi.slot_moved hm (by simp) (hi.held_free (by omega))
      (fun j hj => Function.update_of_ne hj _ _) (fun _ _ => rfl) ?_) ?_ ?_ trivial
  · intro hk
    simp only [Channel.setStamp, Function.update_self, hk]
    unfold History.view
    rw [hm.rankAt, if_pos rfl, hr]
    simp [History.record]
  · refine hm.put_iff hi (fun _ _ => rfl) ?_
    change (s.hist.put _).isSome ↔ _
    rw [hi.put, hr]
    simp
  · refine hm.got_eq hi (fun _ _ => rfl) (fun _ _ => rfl) ?_
    change s.hist.got _ = _
    rw [hi.got, hr]
    simp

omit [DecidableEq Tid] in
/-- The slot a thread reads from holds the message of its position. -/
theorem readMsg_slot (hi : Inv s) (hpc : s.pc t = .readMsg i stamp) :
    s.chan.buffer i = ⟨headStamp s.chan.cap s.chan.oneLap (s.hist.ticket t),
      s.hist.put (s.hist.ticket t)⟩ ∧ (s.hist.put (s.hist.ticket t)).isSome := by
  obtain ⟨hst, _⟩ := hi.tickets.held_owner (show (s.pc t).stage t = some (.claimed t) by rw [hpc]; rfl)
  have hr : s.hist.rankAt (s.hist.ticket t) = 4 := by rw [History.rankAt, hst]; rfl
  have hok := hi.pcs t
  rw [hpc] at hok
  obtain ⟨rfl, rfl⟩ := hok
  rw [hi.slot _ ⟨by omega, hi.held_free (by omega)⟩, hi.put]
  unfold History.view
  rw [hr]
  exact ⟨rfl, by omega⟩

/-- Reading the message out of the slot. -/
theorem got_msg (hi : Inv s) (hpc : s.pc t = .readMsg i stamp) :
    Inv { chan := s.chan.setMsg i none
          pc := Function.update s.pc t (.readStamp i stamp (s.chan.buffer i).msg)
          hist := s.hist.record t (.got (s.chan.buffer i).msg) } := by
  have hmsg := congrArg Slot.msg (hi.readMsg_slot hpc).1
  obtain ⟨hst, how⟩ := hi.tickets.held_owner (show (s.pc t).stage t = some (.claimed t) by rw [hpc]; rfl)
  have hr : s.hist.rankAt (s.hist.ticket t) = 4 := by rw [History.rankAt, hst]; rfl
  have hok := hi.pcs t
  rw [hpc] at hok
  obtain ⟨rfl, rfl⟩ := hok
  rw [hmsg]
  have hm : Moved s t
      (.readStamp (s.hist.ticket t % s.chan.cap)
        (tailStamp s.chan.cap s.chan.oneLap (s.hist.ticket t + s.chan.cap))
        (s.hist.put (s.hist.ticket t)))
      (s.hist.ticket t) (.taken t) (s.hist.record t (.got (s.hist.put (s.hist.ticket t)))) :=
    { stage := rfl
      ticket := (Function.update_eq_self _ _).symm
      sends := Nat.le_refl _
      recvs := Nat.le_refl _
      got := fun j hj => Function.update_of_ne (by rintro rfl; omega) _ _
      rank := by rw [hr]; exact Nat.lt_succ_self 4
      old := .inl ⟨how, rfl⟩
      new := .inl ⟨rfl, rfl⟩ }
  refine hi.move hm rfl rfl rfl hi.head hi.tail (hm.count_iff hi.sends (by omega))
    (hm.count_iff hi.recvs (by omega)) (fun j hj => hm.free (hi.free j hj))
    (hi.slot_moved hm (by simp) (hi.held_free (by omega))
      (fun j hj => Function.update_of_ne hj _ _) (fun _ _ => rfl) ?_) ?_ ?_
      ⟨rfl, rfl, by simp [History.record]⟩
  · intro hk
    simp only [Channel.setMsg, Function.update_self, hk]
    unfold History.view
    rw [hm.rankAt, if_pos rfl, hr]
    simp
  · refine hm.put_iff hi (fun _ _ => rfl) ?_
    change (s.hist.put _).isSome ↔ _
    rw [hi.put, hr]
    simp
  · refine hm.got_eq hi (fun _ _ => rfl) (fun j hj => Function.update_of_ne hj _ _) ?_
    simp [History.record]

/-- Storing the stamp that hands the slot to the senders of the next round. -/
theorem release (hi : Inv s) {msg : Option T} (hpc : s.pc t = .readStamp i stamp msg) :
    Inv { chan := s.chan.setStamp i stamp
          pc := Function.update s.pc t (.readOk msg)
          hist := s.hist.record t .release } := by
  obtain ⟨hst, how⟩ := hi.tickets.held_owner (show (s.pc t).stage t = some (.taken t) by rw [hpc]; rfl)
  have hr : s.hist.rankAt (s.hist.ticket t) = 5 := by rw [History.rankAt, hst]; rfl
  have hok := hi.pcs t
  rw [hpc] at hok
  obtain ⟨rfl, rfl, hgot⟩ := hok
  have hm : Moved s t (.readOk msg) (s.hist.ticket t) .released (s.hist.record t .release) :=
    { stage := rfl
      ticket := (Function.update_eq_self _ _).symm
      sends := Nat.le_refl _
      recvs := Nat.le_refl _
      got := fun _ _ => rfl
      rank := by rw [hr]; exact Nat.lt_succ_self 5
      old := .inl ⟨how, rfl⟩
      new := .inr ⟨rfl, rfl⟩ }
  refine hi.move hm rfl rfl rfl hi.head hi.tail (hm.count_iff hi.sends (by omega))
    (hm.count_iff hi.recvs (by omega)) (fun j hj => hm.free (hi.free j hj)) ?_ ?_ ?_
    ⟨hgot, by rw [hm.rankAt]; simp [History.record]⟩
  · have hk : s.hist.Live s.chan.cap (s.hist.ticket t) :=
      ⟨by omega, hi.held_free (by omega)⟩
    have hkslot := hi.slot _ hk
    intro j hj
    have hjk : j ≠ s.hist.ticket t := by
      rintro rfl
      exact hj.1 (by rw [hm.rankAt, if_pos rfl]; rfl)
    have hrj : (s.hist.record t .release).rankAt j = s.hist.rankAt j := by
      rw [hm.rankAt, if_neg hjk]
    by_cases hlj : s.hist.Live s.chan.cap j
    · have hmod : j % s.chan.cap ≠ s.hist.ticket t % s.chan.cap := fun h =>
        hjk (hi.live_unique hlj hk h)
      simp only [Channel.setStamp, Function.update_of_ne hmod, hi.slot j hlj]
      unfold History.view
      rw [hrj]
      rfl
    · -- the only position that became live is the next round of this slot
      have hcap : ¬ j < s.chan.cap ∧ j - s.chan.cap = s.hist.ticket t := by
        rcases hj.2 with hf | hf
        · exact absurd ⟨hrj ▸ hj.1, .inl hf⟩ hlj
        · rw [hm.rankAt] at hf
          split at hf
          · rename_i heq
            refine ⟨fun hlt => hlj ⟨hrj ▸ hj.1, .inl hlt⟩, heq⟩
          · exact absurd ⟨hrj ▸ hj.1, .inr hf⟩ hlj
      obtain rfl : j = s.hist.ticket t + s.chan.cap := by omega
      have hzero : s.hist.rankAt (s.hist.ticket t + s.chan.cap) = 0 := by
        by_contra hne
        have hlt := (hi.sends _).mpr (Nat.pos_of_ne_zero hne)
        rcases hi.free _ hlt with hf | hf
        · exact hcap.1 hf
        · rw [Nat.add_sub_cancel] at hf
          omega
      simp only [Channel.setStamp, Nat.add_mod_right, Function.update_self, hkslot]
      unfold History.view
      rw [hrj, hzero, hr]
      simp
  · refine hm.put_iff hi (fun _ _ => rfl) ?_
    change (s.hist.put _).isSome ↔ _
    rw [hi.put, hr]
    simp
  · refine hm.got_eq hi (fun _ _ => rfl) (fun _ _ => rfl) ?_
    change s.hist.got _ = if _ then s.hist.put _ else none
    rw [hi.got, hr]
    simp

end

/-! ## All steps -/

omit [DecidableEq Tid] in
theorem pc_eq {t : Tid} {pc : Pc T} (hpc : s.pc t = pc) (hi : Inv s) :
    PcOk s.chan.cap s.chan.oneLap s.hist t pc := hpc ▸ hi.pcs t

/-- Entering a call, or taking its result, touches no shared word. -/
theorem call (hi : Inv s) {t : Tid} {c : Call T} {s' : State Tid T}
    (h : program.enter s t c = some s') : Inv s' := by
  obtain ⟨pc, hpc, rfl⟩ := Lib.Program.enter_eq_some h
  change (s.pc t).call c = some pc at hpc
  refine hi.setPc s.chan.isDisconnected ?_ ?_
  · cases hp : s.pc t with
    | sent token | received token =>
      obtain ⟨_ | i, stamp⟩ := token <;> rw [hp] at hpc <;> cases c <;>
        simp only [Pc.call, Option.some.injEq, reduceCtorEq] at hpc <;> subst hpc <;> rfl
    | _ =>
      rw [hp] at hpc
      cases c <;> simp only [Pc.call, Option.some.injEq, reduceCtorEq] at hpc <;>
        subst hpc <;> rfl
  · cases hp : s.pc t with
    | sent token | received token =>
      have hok := pc_eq hp hi
      obtain ⟨_ | i, stamp⟩ := token <;> rw [hp] at hpc <;> cases c <;>
        simp only [Pc.call, Option.some.injEq, reduceCtorEq] at hpc <;> subst hpc <;>
        exact hok
    | _ =>
      rw [hp] at hpc
      cases c <;> simp only [Pc.call, Option.some.injEq, reduceCtorEq] at hpc <;>
        subst hpc <;> trivial

omit [DecidableEq Tid] in
/-- A stamp load by a sender that finds its tail. -/
theorem free_of_stamp (hi : Inv s) {k : Nat} (hk : k ≤ s.hist.sends)
    (h : tailStamp s.chan.cap s.chan.oneLap k = (s.chan.buffer (k % s.chan.cap)).stamp) :
    s.hist.Free s.chan.cap k := by
  have hg := hi.geo
  by_cases hne : s.hist.rankAt k = 6
  · exact hi.free k ((hi.sends k).mpr (by omega))
  · rcases hi.live_at hk hne with hl | ⟨hcap, hl⟩
    · exact hl.2
    · have hmod : (k - s.chan.cap) % s.chan.cap = k % s.chan.cap := by
        rw [← Nat.add_mod_right, Nat.sub_add_cancel hcap]
      have hslot := hi.slot _ hl
      rw [hmod] at hslot
      rw [hslot] at h
      simp only [History.view] at h
      split at h
      · rw [tailStamp_inj hg.pos hg.le] at h
        have := hg.pos
        omega
      · exact absurd h (tailStamp_ne_headStamp hg.pos hg.le _ _)

omit [DecidableEq Tid] in
/-- A stamp load by a receiver that finds its head. -/
theorem published_of_stamp (hi : Inv s) {k : Nat} (hk : k ≤ s.hist.recvs)
    (h : headStamp s.chan.cap s.chan.oneLap k = (s.chan.buffer (k % s.chan.cap)).stamp) :
    3 ≤ s.hist.rankAt k := by
  have hg := hi.geo
  by_cases hne : s.hist.rankAt k = 6
  · omega
  · rcases hi.live_at (Nat.le_trans hk hi.recvs_le_sends) hne with hl | ⟨hcap, hl⟩
    · have hslot := hi.slot _ hl
      rw [hslot] at h
      simp only [History.view] at h
      split at h
      · exact absurd h (headStamp_ne_tailStamp hg.pos hg.le _ _)
      · omega
    · have hmod : (k - s.chan.cap) % s.chan.cap = k % s.chan.cap := by
        rw [← Nat.add_mod_right, Nat.sub_add_cancel hcap]
      have hslot := hi.slot _ hl
      rw [hmod] at hslot
      rw [hslot] at h
      simp only [History.view] at h
      split at h
      · exact absurd h (headStamp_ne_tailStamp hg.pos hg.le _ _)
      · rw [headStamp_inj hg.pos hg.le] at h
        have := hg.pos
        omega

/-- **One atomic step keeps the invariant.** -/
theorem run (hi : Inv s) {t : Tid} {spurious : Bool} {s' : State Tid T}
    (h : program.run s t spurious = some s') : Inv s' := by
  have hg := hi.geo
  obtain ⟨ch, pc, ev, hstep, rfl⟩ := Lib.Program.run_eq_some h
  change s.chan.step spurious (s.pc t) = some (ch, pc, ev) at hstep
  -- a silent step is `setPc` once its new local facts are known
  have silent : ∀ {p p' : Pc T}, s.pc t = p → p'.stage t = p.stage t →
      PcOk s.chan.cap s.chan.oneLap s.hist t p' →
      Inv { s with pc := Function.update s.pc t p' } := fun hp hst hok =>
    hi.setPc s.chan.isDisconnected (hst.trans (by rw [hp])) hok
  cases hp : s.pc t with
  | sendDisconnected =>
    rw [hp, Channel.step] at hstep
    split at hstep <;> cases hstep
    · exact silent hp rfl trivial
    · exact silent hp rfl trivial
  | sendTail =>
    rw [hp, Channel.step] at hstep
    cases hstep
    exact silent hp rfl ⟨_, Nat.le_refl _, hi.tail⟩
  | sendStamp tail =>
    obtain ⟨k, hk, rfl⟩ := pc_eq hp hi
    rw [hp, Channel.step] at hstep
    simp only [hg.index_tailStamp] at hstep
    split at hstep
    · rename_i heq
      cases hstep
      exact silent hp rfl ⟨heq.symm, k, hk, rfl, hi.free_of_stamp hk heq⟩
    · split at hstep <;> cases hstep
      · exact silent hp rfl ⟨k, hk, rfl⟩
      · exact silent hp rfl trivial
  | sendCas tail stamp =>
    obtain ⟨rfl, k, hk, rfl, hf⟩ := pc_eq hp hi
    rw [hp, Channel.step] at hstep
    split at hstep <;> cases hstep
    · rename_i hcas
      rw [← hcas.1, hg.wrappingAdd_eq]
      exact hi.tailCas hf hcas.1 (by rw [hp]; rfl)
    · exact silent hp rfl trivial
  | sendHead tail =>
    rw [hp, Channel.step] at hstep
    split at hstep <;> cases hstep
    · exact silent hp rfl trivial
    · exact silent hp rfl trivial
  | writeMsg slot stamp msg =>
    rw [hp, Channel.step] at hstep
    cases hstep
    exact hi.put_msg hp
  | writeStamp slot stamp =>
    rw [hp, Channel.step] at hstep
    cases hstep
    exact hi.publish hp
  | recvHead =>
    rw [hp, Channel.step] at hstep
    cases hstep
    exact silent hp rfl ⟨_, Nat.le_refl _, hi.head⟩
  | recvStamp head =>
    obtain ⟨k, hk, rfl⟩ := pc_eq hp hi
    rw [hp, Channel.step] at hstep
    simp only [hg.index_headStamp] at hstep
    split at hstep
    · rename_i heq
      cases hstep
      exact silent hp rfl ⟨heq.symm, k, hk, rfl, hi.published_of_stamp hk heq⟩
    · split at hstep <;> cases hstep
      · exact silent hp rfl ⟨k, hk, rfl⟩
      · exact silent hp rfl trivial
  | recvCas head stamp =>
    obtain ⟨rfl, k, hk, rfl, h3⟩ := pc_eq hp hi
    rw [hp, Channel.step] at hstep
    split at hstep <;> cases hstep
    · rename_i hcas
      rw [← hcas.1, hg.wrappingAdd_eq]
      exact hi.headCas h3 hcas.1 (by rw [hp]; rfl)
    · exact silent hp rfl trivial
  | recvTail head =>
    obtain ⟨k, hk, rfl⟩ := pc_eq hp hi
    rw [hp, Channel.step] at hstep
    split at hstep <;> cases hstep
    · rename_i heq
      rw [hg.wrappingAdd_eq, hi.tail, tailStamp_add_eq hg.pos hg.le] at heq
      exact silent hp rfl ⟨k, hk, rfl, by rw [hi.tail, heq]⟩
    · exact silent hp rfl trivial
  | recvDisconnected head tail =>
    have hok := pc_eq hp hi
    rw [hp, Channel.step] at hstep
    split at hstep <;> cases hstep
    · exact silent hp rfl hok
    · exact silent hp rfl trivial
  | recvTailAgain head tail =>
    rw [hp, Channel.step] at hstep
    split at hstep <;> cases hstep
    · exact silent hp rfl trivial
    · exact silent hp rfl trivial
  | readMsg slot stamp =>
    rw [hp, Channel.step] at hstep
    cases hstep
    exact hi.got_msg hp
  | readStamp slot stamp msg =>
    rw [hp, Channel.step] at hstep
    cases hstep
    exact hi.release hp
  | emptyHead =>
    rw [hp, Channel.step] at hstep
    cases hstep
    exact silent hp rfl ⟨_, Nat.le_refl _, hi.head⟩
  | fullTail =>
    rw [hp, Channel.step] at hstep
    cases hstep
    exact silent hp rfl ⟨_, Nat.le_refl _, hi.tail⟩
  | lenTailAgain tail head =>
    rw [hp, Channel.step] at hstep
    split at hstep <;> cases hstep
    · exact silent hp rfl trivial
    · exact silent hp rfl trivial
  | disconnectSwap =>
    rw [hp, Channel.step] at hstep
    cases hstep
    exact hi.setPc true (by rw [hp]; rfl) trivial
  | emptyTail head | fullHead tail | lenTail | lenHead tail | disconnectedLoad =>
    rw [hp, Channel.step] at hstep
    cases hstep
    exact silent hp rfl trivial
  | _ => simp [hp, Channel.step] at hstep

end Inv

omit [DecidableEq Tid] in
theorem Inv.init {ch : Channel T} {maxValue cap : Nat}
    (h : Channel.withCapacity maxValue none cap = some ch) :
    Inv (State.init ch : State Tid T) := by
  have hg := geometry_withCapacity h
  unfold Channel.withCapacity at h
  split at h <;> [split at h; skip]
  · obtain rfl := Option.some.inj h
    have hz : ∀ k, (History.empty : History Tid T).rankAt k = 0 := fun _ => rfl
    refine ⟨hg, ?_, ?_, ?_, ?_, ?_, ?_, ?_, ?_, ?_, ?_⟩
    · simp [State.init, History.empty, headStamp, pack]
    · simp [State.init, History.empty, tailStamp, pack]
    · intro k
      simp only [State.init, hz]
      exact iff_of_false (Nat.not_lt_zero k) (by omega)
    · intro k
      simp only [State.init, hz]
      exact iff_of_false (Nat.not_lt_zero k) (by omega)
    · intro k hk
      exact absurd hk (Nat.not_lt_zero k)
    · intro k hk
      have hlt : k < cap := by
        rcases hk.2 with hf | hf
        · exact hf
        · exact absurd hf (by simp only [State.init, hz]; omega)
      simp [State.init, History.view, hz, tailStamp, pack, Nat.mod_eq_of_lt hlt,
        Nat.div_eq_of_lt hlt]
    · intro k
      simp only [State.init, hz]
      exact iff_of_false (by simp [History.empty]) (by omega)
    · intro k
      simp only [State.init, hz]
      rfl
    · refine ⟨fun t st hst => ?_, fun k t hk => ?_, fun t st => Pc.stage_owner⟩
      · exact absurd hst (by simp [State.init, Pc.stage])
      · exact absurd hk (by simp [State.init, History.empty, Stage.owner])
    · intro t
      trivial
  · exact absurd h (by simp)
  · exact absurd h (by simp)

/-- **Every reachable state satisfies the invariant.** -/
theorem inv_reachable {ch : Channel T} {maxValue cap : Nat}
    (h : Channel.withCapacity maxValue none cap = some ch) {s : State Tid T}
    (hs : (system ch).Reachable s) : Inv s := by
  refine hs.invariant (fun s0 h0 => ?_) fun s0 l s1 _ hi hstep => ?_
  · obtain rfl := h0
    exact .init h
  · cases l with
    | call t c => exact hi.call hstep
    | run t spurious => exact hi.run hstep

end CrossbeamChannel.ArrayFlavor
