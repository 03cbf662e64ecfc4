import CrossbeamChannel.World.Pairing

/-!
# Who is in which deal

An operation that is party to a deal that has been made is on its way to do its part in it, or has
done it and returned: `World.Engaged`. So an operation is party to one such deal at most, and a
deal that is never made comes to its end by its owner: `World.engagements_of_reachable`.

`Accounts` follows the packets: who holds one has a deal. This module follows the parties: who has a deal
holds the packet, or will, or is done. The owner of the packet may not know yet that it has been selected
(`summoned`): until it reads its context it could do anything a waiting thread does, and `Scopes` has it
that this leads to the packet. A deal that is not made is withdrawn by its owner (`zero.rs` 335-344 and
151-170), who then takes back the message, or frees the packet (`Loose`).
-/

namespace CrossbeamChannel

variable {Tid T : Type}

namespace World

/-- What has become of a party to the deal about packet `p`. -/
inductive Engaged (kind : Nat → Kind T) (w : World Tid T) (p : Nat)
    (x : Lib.Deal (Party Tid) T) (q : Party Tid) : Prop where
  /-- It has been selected, and has yet to find out. -/
  | summoned (howner : x.owner = q) (hop : q.op = (w.thread q.thread).ops)
      (hmade : (stakes kind w q.thread).made q.place)
      (hsel : (w.shared.reg.cx q.thread).select = .operation (q.place.oper q.thread))
      (hpacket : (w.shared.reg.cx q.thread).packet = some p)
  | carries (hop : q.op = (w.thread q.thread).ops)
      (hf : (w.thread q.thread).frame.Carries p q.place.chan q.place.side x.msg)
  | done (hop : q.op = (w.thread q.thread).ops)
      (hf : (w.thread q.thread).frame = .done (Frame.handed x.msg q.place.side))
      (hquit : x.Quits q)
  | gone (hop : q.op < (w.thread q.thread).ops) (hquit : x.Quits q)

/-- What has become of a deal that has not been made. -/
inductive Loose (w : World Tid T) (p : Nat) (x : Lib.Deal (Party Tid) T) : Prop where
  | closed (hst : x.stage = .over)
  /-- Nothing is left to be done about an empty slot on a stack. -/
  | left (hst : x.stage = .withdrawn) (hkept : x.kept = true) (hgives : x.gives = false)
  | recalled (hop : x.owner.op = (w.thread x.owner.thread).ops) (hst : x.stage = .withdrawn)
      (hf : (w.thread x.owner.thread).frame.recalls = some p)
  | offered (hop : x.owner.op = (w.thread x.owner.thread).ops) (hst : x.stage = .offered)
      (he : ⟨x.owner.place.oper x.owner.thread, some p⟩ ∈
        (w.shared.reg.waker x.owner.place.chan x.owner.place.side).entries)

/-- **What is known of every deal.** -/
structure Engagements (kind : Nat → Kind T) (w : World Tid T) (D : Ledger Tid T) : Prop where
  sane : ∀ p x, D p = some x → x.Sane
  zero : ∀ p x, D p = some x → (kind x.owner.place.chan).IsZero
  known : ∀ p x, D p = some x → x.owner.op ≤ (w.thread x.owner.thread).ops
  /-- The partner is another thread, on the other side of the channel. -/
  partner : ∀ p x q, D p = some x → x.partner = some q → q.thread ≠ x.owner.thread ∧
    q.place = ⟨x.owner.place.chan, x.owner.place.side.opposite, 0⟩
  plays : ∀ p x q, D p = some x → x.partner ≠ none → x.Between q → Engaged kind w p x q
  /-- An operation is party to one deal at most. -/
  once : ∀ p x q p' x' q', D p = some x → D p' = some x' → x.partner ≠ none → x'.partner ≠ none →
    x.Between q → x'.Between q' → q.ident = q'.ident → p = p'
  loose : ∀ p x, D p = some x → x.partner = none → Loose w p x

end World

namespace Frame

variable {kind : Nat → Kind T} {f : Frame Tid T} {p c : Nat} {d : Side} {msg : Option T}

/-- Who carries a packet is outside `Context::with`. -/
theorem Carries.calm (h : f.Carries p c d msg) : f.Calm kind := by
  unfold Carries at h
  split at h
  all_goals first | exact fun _ => rfl | exact h.elim

theorem Carries.not_comes (h : f.Carries p c d msg) : ¬ f.Comes := by
  unfold Carries at h
  split at h
  all_goals first | exact id | exact h.elim

theorem Carries.not_ended (h : f.Carries p c d msg) : f.ended = false := by
  unfold Carries at h
  split at h
  all_goals first | rfl | exact h.elim

theorem Comes.calm (h : f.Comes) : f.Calm kind := by
  unfold Comes at h
  split at h
  all_goals first | exact fun _ => rfl | exact h.elim

theorem Comes.not_ended (h : f.Comes) : f.ended = false := by
  unfold Comes at h
  split at h
  all_goals first | rfl | exact h.elim

theorem calm_of_touches (h : f.touches = some p) : f.Calm kind := by
  unfold touches at h
  split at h
  all_goals first | exact fun _ => rfl | cases h

end Frame

variable [DecidableEq Tid]

/-- A context that is decided stays as it is, unless its owner renews it. -/
theorem Shared.cx_kept {w : Shared Tid T} {t u : Tid} {act : Act Tid T}
    (hne : (w.reg.cx u).select ≠ .waiting) (hr : u = t → ¬ Shared.Renews act) :
    (w.apply t act).reg.cx u = w.reg.cx u := by
  by_cases hu : u = t
  · subst hu
    have fresh := hr rfl
    have swept : ∀ (r : Registry Tid) c d, (r.cx u).select ≠ .waiting →
        (r.disconnect c d).cx u = r.cx u := by
      intro r c d h
      simp only [Registry.disconnect, Waker.disconnect_apply]
      split
      · exact Context.trySelect_decided h
      · rfl
    cases act with
    | reset | queue _ _ _ => exact absurd trivial fresh
    | abort =>
      simp only [apply, Registry.abort, Function.update_self]
      exact Context.trySelect_decided hne
    | disconnect c d => exact swept _ _ _ hne
    | disconnectZero c =>
      have h₁ := swept w.reg c .send hne
      exact (swept _ _ _ (by rwa [h₁])).trans h₁
    | wakeOne c d =>
      simp only [apply, Registry.wakeOne]
      cases he : ((w.reg.waker c d).wakeOne w.reg.cx u).1 with
      | none => rfl
      | some e => exact Waker.wakeContext_of_ne (Ne.symm (Waker.wakeOne_some he).2.1)
    | _ => rfl
  · exact cx_decided hu hne

namespace World

variable {kind : Nat → Kind T} {w w' : World Tid T} {t : Tid} {act : Act Tid T} {th : Thread Tid T}
  {count : Nat → Side → Nat} {D D' : Ledger Tid T} {g : Frame Tid T}

/-- Thread `t` comes to the packet of an operation that waits in the queue of side `d`. -/
structure Meets (kind : Nat → Kind T) (w : World Tid T) (t : Tid) (act : Act Tid T) (g : Frame Tid T)
    (D : Ledger Tid T) (p : Nat) (c : Nat) (d : Side) (e : Entry Tid)
    (x y : Lib.Deal (Party Tid) T) : Prop where
  zero : (kind c).IsZero
  act : act = .wakeOne c d
  found : (w.shared.reg.wakeOne c d t).1 = some e
  packet : e.packet = some p
  deal : D p = some x
  next : x.next (.meet ⟨t, (w.thread t).ops, ⟨c, d.opposite, 0⟩⟩) = some y
  comes : (w.thread t).frame.Comes
  carries : ∀ msg, g.Carries p c d.opposite msg

/-- What a deal was before a turn of thread `t`. -/
theorem Deed.before (hd : Deed kind w t act g D D') {p : Nat} {y : Lib.Deal (Party Tid) T}
    (hp : D' p = some y) :
    D p = some y ∨
      (p = w.shared.fresh ∧ ∃ pl v, y = Accounts.offered w t pl v ∧ (kind pl.chan).IsZero) ∨
      (∃ x mv, D p = some x ∧ x.next mv = some y ∧ ∀ q, mv ≠ .meet q) ∨
      ∃ c d e x, Meets kind w t act g D p c d e x y := by
  have put : ∀ {r z}, (D.put r z) p = some y → (p = r ∧ y = z) ∨ D p = some y := by
    intro r z hp
    by_cases hr : p = r
    · subst hr
      rw [Ledger.put_self] at hp
      exact .inl ⟨rfl, (Option.some.inj hp).symm⟩
    · rw [Ledger.put_of_ne hr] at hp
      exact .inr hp
  cases hd with
  | idle _ _ => exact .inl hp
  | enter hz _ _ =>
    rcases put hp with ⟨rfl, rfl⟩ | hp
    · exact .inr (.inl ⟨rfl, _, _, rfl, hz⟩)
    · exact .inl hp
  | meet hz hact he hpk hdeal hnext hcomes hcarry =>
    rename_i c d e r x z
    rcases put hp with ⟨rfl, rfl⟩ | hp
    · refine .inr (.inr (.inr ⟨c, d.opposite, e, x, hz, hact, he, hpk, hdeal, ?_, hcomes, ?_⟩))
      · rwa [Side.opposite_opposite]
      · rwa [Side.opposite_opposite]
    · exact .inl hp
  | back _ _ _ _ hdeal hnext _ hcall _ =>
    rcases put hp with ⟨rfl, rfl⟩ | hp
    · refine .inr (.inr (.inl ⟨_, _, hdeal, hnext, fun q => ?_⟩))
      rcases hcall with ⟨rfl, -⟩ | ⟨rfl, -⟩ <;> simp
    · exact .inl hp
  | fill _ hdeal hnext _ _ hst _ _ =>
    rcases put hp with ⟨rfl, rfl⟩ | hp
    · refine .inr (.inr (.inl ⟨_, _, hdeal, hnext, ?_⟩))
      rintro q rfl
      simp only [Lib.Deal.next, if_neg hst] at hnext
      cases hnext
    · exact .inl hp

/-- A deal that is made was made before, by the same two, or the step makes it. -/
theorem Deed.made_before (hd : Deed kind w t act g D D') {p : Nat} {y : Lib.Deal (Party Tid) T}
    (hp : D' p = some y) (hm : y.partner ≠ none) :
    (∃ x, D p = some x ∧ x.partner = y.partner ∧ x.owner = y.owner ∧
      (y = x ∨ ∃ mv, x.next mv = some y)) ∨
      ∃ c d e x, Meets kind w t act g D p c d e x y := by
  rcases hd.before hp with hold | ⟨-, pl, v, rfl, -⟩ | ⟨x, mv, hdeal, hn, hmv⟩ | hmeets
  · exact .inl ⟨y, hold, rfl, rfl, .inl rfl⟩
  · exact absurd rfl hm
  · exact .inl ⟨x, hdeal, (Lib.Deal.next_partner hn hmv).symm, (Lib.Deal.next_static hn).1.symm,
      .inr ⟨mv, hn⟩⟩
  · exact .inr hmeets

end World

namespace Frame

variable {f : Frame Tid T} {p c : Nat} {d : Side} {msg : Option T}

omit [DecidableEq Tid] in
/-- Before the message is stored nobody relies on it. -/
theorem Carries.of_store {D : Ledger Tid T} {t : Tid} {n : Nat} {x : Lib.Deal (Party Tid) T}
    (h : f.Carries p c d msg) (hg : f.Grip D t n) (hdeal : D p = some x) (hst : x.stage = .store)
    (msg' : Option T) : f.Carries p c d msg' := by
  unfold Carries at h ⊢
  split at h
  all_goals try exact h
  · obtain ⟨rfl, -⟩ := h
    rcases hg with ⟨y, q, hy, -, -, -, -, hpub⟩ | ⟨y, q, hy, -, -, -, -, hpub⟩
    all_goals
      obtain rfl := Option.some.inj (hdeal.symm.trans hy)
      rw [hst] at hpub
      cases hpub
  · obtain ⟨rfl, -⟩ := h
    obtain ⟨y, q, hy, -, -, -, hfree⟩ := hg
    obtain rfl := Option.some.inj (hdeal.symm.trans hy)
    rw [hst] at hfree
    cases hfree

end Frame

namespace World

variable {kind : Nat → Kind T} {w w' : World Tid T} {t : Tid} {act : Act Tid T} {th : Thread Tid T}
  {count : Nat → Side → Nat} {D D' : Ledger Tid T} {g : Frame Tid T} {p : Nat} {pr' : Prog}
  {x y : Lib.Deal (Party Tid) T} {q r : Party Tid} {mv : Lib.Deal.Move (Party Tid) T}
  {c : Nat} {d : Side} {e : Entry Tid}

/-! ## The two parties of a deal -/

namespace Engagements

omit [DecidableEq Tid] in
/-- Who gives and who takes are two threads. -/
theorem apart (h : Engagements kind w D) (hdeal : D p = some x) (hg : x.giver = some q)
    (ht : x.taker = some r) : q.thread ≠ r.thread := by
  unfold Lib.Deal.giver at hg
  unfold Lib.Deal.taker at ht
  split at hg
  · rw [if_pos ‹_›] at ht
    obtain rfl := Option.some.inj hg
    exact (h.partner p x r hdeal ht).1.symm
  · rw [if_neg ‹_›] at ht
    obtain rfl := Option.some.inj ht
    exact (h.partner p x q hdeal hg).1

omit [DecidableEq Tid] in
theorem same (h : Engagements kind w D) (hdeal : D p = some x) (hq : x.Between q) (hr : x.Between r)
    (hthread : q.thread = r.thread) : q = r := by
  rcases hq with rfl | hq <;> rcases hr with rfl | hr
  · rfl
  · exact absurd hthread.symm (h.partner p x r hdeal hr).1
  · exact absurd hthread (h.partner p x q hdeal hq).1
  · exact Option.some.inj (hq.symm.trans hr)

omit [DecidableEq Tid] in
/-- Who gives sends, and who takes receives. -/
theorem sides (h : Engagements kind w D) (ha : Accounts kind w D) (hdeal : D p = some x) :
    (x.giver = some q → q.place.side = .send) ∧ (x.taker = some q → q.place.side = .recv) := by
  have hside := (ha.shows p x hdeal).side
  cases hg : x.gives with
  | true =>
    have hsend := hside.mp hg
    simp only [Lib.Deal.giver, Lib.Deal.taker, hg, if_true]
    refine ⟨fun hq => ?_, fun hq => ?_⟩
    · obtain rfl := Option.some.inj hq
      exact hsend
    · rw [(h.partner p x q hdeal hq).2, hsend]
      rfl
  | false =>
    have hrecv : x.owner.place.side = .recv := by
      cases hd : x.owner.place.side with
      | recv => rfl
      | send => cases hg.symm.trans (hside.mpr hd)
    simp only [Lib.Deal.giver, Lib.Deal.taker, hg, Bool.false_eq_true, if_false]
    refine ⟨fun hq => ?_, fun hq => ?_⟩
    · rw [(h.partner p x q hdeal hq).2, hrecv]
      rfl
    · obtain rfl := Option.some.inj hq
      exact hrecv

omit [DecidableEq Tid] in
/-- What a party hands over is not changed by what comes after its part. -/
theorem handed_next (h : Engagements kind w D) (ha : Accounts kind w D) (hdeal : D p = some x)
    (hq : x.Between q) (hquit : x.Quits q) {mv : Lib.Deal.Move (Party Tid) T}
    (hn : x.next mv = some y) :
    (Frame.handed y.msg q.place.side : Outcome T) = Frame.handed x.msg q.place.side := by
  rcases hq.gives_or_takes with hg | ht
  · rw [(h.sides ha hdeal).1 hg]
    rfl
  · rw [Lib.Deal.next_over (hquit.2 ht)] at hn
    cases hn

end Engagements

/-- A turn of another thread, whatever it does about the deal, changes nothing for a party. -/
theorem Engaged.others (he : Engaged kind w p x q) (h : Engagements kind w D)
    (ha : Accounts kind w D) (hx : Stepped kind w w' t act th count) (hu : q.thread ≠ t)
    (hdeal : D p = some x) (hm : x.partner ≠ none) (hq : x.Between q)
    (hy : y = x ∨ ∃ mv, x.next mv = some y) : Engaged kind w' p y q := by
  have hsane := h.sane p x hdeal
  have hself := hx.after.others hu
  have hquits : x.Quits q → y.Quits q ∧
      (Frame.handed y.msg q.place.side : Outcome T) = Frame.handed x.msg q.place.side := by
    intro hquit
    rcases hy with rfl | ⟨mv, hn⟩
    · exact ⟨hquit, rfl⟩
    · exact ⟨hquit.next hsane hm hn, h.handed_next ha hdeal hq hquit hn⟩
  cases he with
  | summoned howner hop hmade hsel hpacket =>
    have hcx : (w'.shared.reg.cx q.thread) = w.shared.reg.cx q.thread := by
      rw [hx.after.shared]
      exact Shared.cx_decided hu (by rw [hsel]; simp)
    have hstay : y.owner = q := by
      rcases hy with rfl | ⟨mv, hn⟩
      · exact howner
      · exact (Lib.Deal.next_static hn).1.trans howner
    refine .summoned hstay (by rwa [hself]) ?_ (by rwa [hcx]) (by rwa [hcx])
    rwa [stakes, hself]
  | carries hop hf =>
    refine .carries (by rwa [hself]) ?_
    rw [hself]
    rcases hy with rfl | ⟨mv, hn⟩
    · exact hf
    · by_cases hst : x.stage = .store
      · exact hf.of_store (ha.grip q.thread) hdeal hst _
      · rwa [Lib.Deal.next_msg hn hst]
  | done hop hf hquit =>
    obtain ⟨hquit', hsame⟩ := hquits hquit
    exact .done (by rwa [hself]) (by rw [hself, hsame, hf]) hquit'
  | gone hop hquit => exact .gone (by rwa [hself]) (hquits hquit).1

/-! ## The turns of a party -/

/-- A call that makes a move makes it in the ledger. -/
theorem Deed.of_move (hd : Deed kind w t act g D D') (hcall : (w.thread t).frame.call.move = some (p, mv))
    (hact : act = .silent ∨ ∃ v, act = .setPacket p v) (hdeal : D p = some x) :
    ∃ y, x.next mv = some y ∧ D' p = some y := by
  cases hd with
  | idle hrest _ => rw [hrest] at hcall; cases hcall
  | enter _ hreg _ =>
    rcases hact with rfl | ⟨v, rfl⟩ <;> rcases hreg with ⟨hno, -⟩ | ⟨hno, -⟩ <;> cases hno
  | meet _ hno _ _ _ _ _ _ => rcases hact with rfl | ⟨v, rfl⟩ <;> cases hno
  | back _ hno _ _ _ _ _ _ _ => rcases hact with rfl | ⟨v, rfl⟩ <;> cases hno
  | fill _ hdeal' hnext _ _ _ _ hsame =>
    obtain ⟨rfl, rfl⟩ := Prod.mk.inj (Option.some.inj (hsame.symm.trans hcall))
    obtain rfl := Option.some.inj (hdeal.symm.trans hdeal')
    exact ⟨_, hnext, Ledger.put_self⟩

/-- A silent step without a move leaves the ledger as it is. -/
theorem Deed.of_silent (hd : Deed kind w t .silent g D D')
    (hcall : (w.thread t).frame.call.move = (none : Option (Nat × Lib.Deal.Move (Party Tid) T))) :
    D' = D := by
  cases hd with
  | idle _ _ => rfl
  | enter _ hreg _ => rcases hreg with ⟨hno, -⟩ | ⟨hno, -⟩ <;> cases hno
  | meet _ hno _ _ _ _ _ _ => cases hno
  | back _ hno _ _ _ _ _ _ _ => cases hno
  | fill _ _ _ _ _ _ _ hsome => rw [hcall] at hsome; cases hsome

/-- What a party that is on its way comes to: it goes on, or it has done its part and returns. -/
def Forth (D' : Ledger Tid T) (p : Nat) (q : Party Tid) (g : Frame Tid T) : Prop :=
  ∃ y, D' p = some y ∧ (g.Carries p q.place.chan q.place.side y.msg ∨
    g = .done (Frame.handed y.msg q.place.side) ∧ y.Quits q)

/-- A party to the deal about `p`, thread `t`, is on its way and takes a turn. -/
structure OnTheWay (kind : Nat → Kind T) (w : World Tid T) (t : Tid) (act : Act Tid T)
    (g : Frame Tid T) (pr' : Prog) (D D' : Ledger Tid T) (p : Nat) (x : Lib.Deal (Party Tid) T)
    (q : Party Tid) : Prop where
  engagements : Engagements kind w D
  accounts : Accounts kind w D
  deal : D p = some x
  between : x.Between q
  thread : q.thread = t
  carries : (w.thread t).frame.Carries p q.place.chan q.place.side x.msg
  next : Frame.Next kind w.shared t (w.thread t).frame (w.thread t).prog act g pr'
  deed : Deed kind w t act g D D'

namespace OnTheWay

/-- The part of the thread is the part of the party. -/
theorem mine (hw : OnTheWay kind w t act g pr' D D' p x q) (hr : x.Between r) (ht : r.thread = t) :
    r = q :=
  hw.engagements.same hw.deal hr hw.between (ht.trans hw.thread.symm)

/-- `recv` and `send` of the zero flavor wait for the packet they have offered to be ready. A sender
    has done its part then. -/
theorem zeroWaitReady {job : Job T} {mode : Mode} {p' : Nat}
    (hw : OnTheWay kind w t act g pr' D D' p x q)
    (hfr : (w.thread t).frame = .zero job mode (.waitReady p')) : Forth D' p q g := by
  obtain ⟨spurious, rep, he, hmore, hret⟩ := hw.next.exec
  have hf := hw.carries
  have hgrip := hw.accounts.grip t
  have hdeal := hw.deal
  have hfits := (hw.accounts.shows p x hdeal).fits
  rw [hfr] at hf he hgrip hmore hret
  obtain ⟨rfl, hchan, hside⟩ := hf
  obtain ⟨rfl, hrep⟩ := Prod.mk.inj (Option.some.inj he)
  obtain rfl := hw.deed.of_silent (by rw [hfr]; rfl)
  cases hready : (w.shared.packet p').ready with
  | false =>
    rw [hready] at hrep
    obtain ⟨rfl, -⟩ := hmore _ hrep.symm
    exact ⟨x, hdeal, .inl ⟨rfl, hchan, hside⟩⟩
  | true =>
    rw [hready] at hrep hfits
    obtain ⟨-, order, hr⟩ := hret _ hrep.symm
    obtain ⟨y, hdeal', howner, hop, hkept, hgives, ho⟩ := hgrip
    obtain rfl := Option.some.inj (hdeal.symm.trans hdeal')
    cases hr
    -- A sender is done when `ready` is set, a receiver has yet to take its message.
    cases hjob : job.side with
    | send =>
      have hpre : x.prefilled = true := by
        rw [Lib.Deal.prefilled, hgives.mpr hjob, hkept]
        rfl
      have hover := hfits.returned ho hpre
      refine ⟨x, hdeal, .inr ⟨?_, fun _ => .inl hover, fun _ => hover⟩⟩
      rw [← hside, hjob]
      rfl
    | recv => exact ⟨x, hdeal, .inl ⟨rfl, hchan, hside⟩⟩

/-- `recv` takes the message out of the packet it has offered, and returns it. -/
theorem zeroTakeMsg {job : Job T} {mode : Mode} {p' : Nat}
    (hw : OnTheWay kind w t act g pr' D D' p x q)
    (hfr : (w.thread t).frame = .zero job mode (.takeMsg p')) : Forth D' p q g := by
  obtain ⟨spurious, rep, he, -, hret⟩ := hw.next.exec
  have hf := hw.carries
  have hgrip := hw.accounts.grip t
  have hdeal := hw.deal
  have hfits := (hw.accounts.shows p x hdeal).fits
  rw [hfr] at hf he hgrip hret
  obtain ⟨rfl, hchan, hside⟩ := hf
  obtain ⟨rfl, rfl⟩ := Prod.mk.inj (Option.some.inj he)
  obtain ⟨-, order, hr⟩ := hret _ rfl
  obtain ⟨z, hnext, hdeal'⟩ := hw.deed.of_move (by rw [hfr]; rfl) (.inr ⟨_, rfl⟩) hdeal
  obtain ⟨y, hdeal'', howner, -, hg, hkept, hst⟩ := hgrip
  obtain rfl := Option.some.inj (hdeal.symm.trans hdeal'')
  have hmsg := hfits.full hnext
  have hz : z = { x with stage := .over } := by
    simpa [Lib.Deal.next, Lib.Deal.prefilled, hst, hg, hkept] using hnext.symm
  subst hz
  have hrecv : q.place.side = .recv := by
    refine (hw.engagements.sides hw.accounts hdeal).2 ?_
    rw [Lib.Deal.taker, hg, ← hw.mine (.inl rfl) howner]
    rfl
  refine ⟨_, hdeal', .inr ⟨?_, fun _ => .inl rfl, fun _ => rfl⟩⟩
  simp only [Frame.resume] at hr
  rw [hmsg.1] at hr
  obtain ⟨m, hm'⟩ := Option.isSome_iff_exists.mp (hmsg.1 ▸ hmsg.2)
  rw [hm'] at hr
  cases hr
  simp only [Frame.handed, hrecv, hm']

/-- `write`, or `read` of a packet on the stack, sets the flag and returns. -/
theorem finishSetReady {job : Job T} {p' : Nat} {out : Outcome T}
    (hw : OnTheWay kind w t act g pr' D D' p x q)
    (hfr : (w.thread t).frame = .finish job (.setReady p' out)) : Forth D' p q g := by
  obtain ⟨spurious, rep, he, -, hret⟩ := hw.next.exec
  have hf := hw.carries
  have hgrip := hw.accounts.grip t
  have hdeal := hw.deal
  rw [hfr] at hf he hgrip hret
  obtain ⟨rfl, hchan, hside, rfl⟩ := hf
  obtain ⟨rfl, rfl⟩ := Prod.mk.inj (Option.some.inj he)
  obtain ⟨-, order, hr⟩ := hret _ rfl
  obtain ⟨z, hnext, hdeal'⟩ := hw.deed.of_move (by rw [hfr]; rfl) (.inr ⟨_, rfl⟩) hdeal
  cases hr
  have hpub : x.stage = .publish := by
    rcases hgrip with ⟨y, r, hy, -, -, -, -, hst⟩ | ⟨y, r, hy, -, -, -, -, hst⟩ <;>
      rw [Option.some.inj (hdeal.symm.trans hy), hst]
  have hz : z = { x with stage := if x.prefilled then .over else .take } := by
    simpa [Lib.Deal.next, hpub] using hnext.symm
  subst hz
  refine ⟨_, hdeal', .inr ⟨rfl, ?_⟩⟩
  -- Who gives leaves a message that has still to be taken; who takes from a stack ends the deal.
  rcases hgrip with ⟨y, r, hy, hgiver, hr, -, hpre, -⟩ | ⟨y, r, hy, -, -, -, hpre, -⟩
  · obtain rfl := Option.some.inj (hdeal.symm.trans hy)
    obtain rfl := hw.mine (Lib.Deal.between_of_giver hgiver) hr
    refine ⟨fun _ => .inr ⟨hpre, .inl (by simp [hpre])⟩, fun htaker => ?_⟩
    exact absurd rfl (hw.engagements.apart hdeal hgiver htaker)
  · obtain rfl := Option.some.inj (hdeal.symm.trans hy)
    have hover : (if x.prefilled then .over else .take : Lib.Deal.Stage) = .over := if_pos hpre
    exact ⟨fun _ => .inl hover, fun _ => hover⟩

/-- `read` takes the message out of the packet. -/
theorem finishTakeMsg {job : Job T} {p' : Nat} {onStack : Bool}
    (hw : OnTheWay kind w t act g pr' D D' p x q)
    (hfr : (w.thread t).frame = .finish job (.takeMsg p' onStack)) : Forth D' p q g := by
  obtain ⟨spurious, rep, he, -, hret⟩ := hw.next.exec
  have hf := hw.carries
  have hgrip := hw.accounts.grip t
  have hdeal := hw.deal
  have hfits := (hw.accounts.shows p x hdeal).fits
  rw [hfr] at hf he hgrip hret
  obtain ⟨rfl, hchan, hside, hrecv⟩ := hf
  obtain ⟨rfl, rfl⟩ := Prod.mk.inj (Option.some.inj he)
  obtain ⟨-, order, hr⟩ := hret _ rfl
  obtain ⟨z, hnext, hdeal'⟩ := hw.deed.of_move (by rw [hfr]; rfl) (.inr ⟨_, rfl⟩) hdeal
  have hst : x.stage = .take := by
    obtain ⟨y, r, hy, -, -, -, -, -, hst⟩ := hgrip
    rw [Option.some.inj (hdeal.symm.trans hy), hst]
  have hsame := Lib.Deal.next_msg hnext (by simp [hst])
  have hmsg := hfits.full hnext
  obtain ⟨m, hm'⟩ := Option.isSome_iff_exists.mp (hmsg.1 ▸ hmsg.2)
  simp only [Frame.resume] at hr
  rw [hmsg.1, hm'] at hr
  refine ⟨z, hdeal', .inl ?_⟩
  rw [hsame, hm']
  cases onStack <;> cases hr
  · exact ⟨rfl, hchan, hside, hrecv, rfl⟩
  · exact ⟨rfl, hchan, hside, by rw [hrecv]; rfl⟩

/-- `read` frees a packet on the heap and returns its message. -/
theorem finishDropPacket {job : Job T} {p' : Nat} {m : T}
    (hw : OnTheWay kind w t act g pr' D D' p x q)
    (hfr : (w.thread t).frame = .finish job (.dropPacket p' m)) : Forth D' p q g := by
  obtain ⟨spurious, rep, he, -, hret⟩ := hw.next.exec
  have hf := hw.carries
  have hgrip := hw.accounts.grip t
  have hdeal := hw.deal
  rw [hfr] at hf he hgrip hret
  obtain ⟨rfl, hchan, hside, hrecv, hmsg⟩ := hf
  obtain ⟨rfl, rfl⟩ := Prod.mk.inj (Option.some.inj he)
  obtain ⟨-, order, hr⟩ := hret _ rfl
  obtain ⟨z, hnext, hdeal'⟩ := hw.deed.of_move (by rw [hfr]; rfl) (.inl rfl) hdeal
  cases hr
  obtain ⟨y, r, hy, -, -, -, hst⟩ := hgrip
  obtain rfl := Option.some.inj (hdeal.symm.trans hy)
  have hz : z = { x with stage := .over } := by
    simpa [Lib.Deal.next, hst] using hnext.symm
  subst hz
  refine ⟨_, hdeal', .inr ⟨?_, fun _ => .inl rfl, fun _ => rfl⟩⟩
  simp only [hrecv, hmsg, Frame.handed]

end OnTheWay

/-- **A party on its way gets on with the deal, and returns when it has done its part.** -/
theorem carries_next (h : Engagements kind w D) (ha : Accounts kind w D) (hdeal : D p = some x)
    (hq : x.Between q) (hthread : q.thread = t)
    (hf : (w.thread t).frame.Carries p q.place.chan q.place.side x.msg)
    (hn : Frame.Next kind w.shared t (w.thread t).frame (w.thread t).prog act g pr')
    (hd : Deed kind w t act g D D') : Forth D' p q g := by
  have hw : OnTheWay kind w t act g pr' D D' p x q := ⟨h, ha, hdeal, hq, hthread, hf, hn, hd⟩
  obtain ⟨spurious, rep, he, hmore, hret⟩ := hn.exec
  cases hfr : (w.thread t).frame with
  | zero job mode st =>
    rw [hfr] at hf he hmore hret
    cases st with
    | waitReady p' => exact hw.zeroWaitReady hfr
    | takeMsg p' => exact hw.zeroTakeMsg hfr
    | _ => exact hf.elim
  | finish job st =>
    rw [hfr] at hf he hmore hret
    cases st with
    | storeMsg p' =>
      obtain ⟨rfl, hchan, hside, hsend⟩ := hf
      obtain ⟨c, msg⟩ := job
      cases msg with
      | none => cases he
      | some m =>
        obtain ⟨rfl, rfl⟩ := Prod.mk.inj (Option.some.inj he)
        obtain ⟨-, order, hr⟩ := hret _ rfl
        obtain ⟨z, hnext, hdeal'⟩ := hd.of_move (by rw [hfr]; rfl) (.inr ⟨_, rfl⟩) hdeal
        cases hr
        exact ⟨z, hdeal', .inl ⟨rfl, hchan, hside, by rw [hsend]; rfl⟩⟩
    | setReady p' out => exact hw.finishSetReady hfr
    | loadOnStack p' =>
      obtain ⟨rfl, hchan, hside, hrecv⟩ := hf
      obtain ⟨rfl, rfl⟩ := Prod.mk.inj (Option.some.inj he)
      obtain ⟨-, order, hr⟩ := hret _ rfl
      obtain rfl := hd.of_silent (by rw [hfr]; rfl)
      cases hstack : (w.shared.packet p').onStack <;> rw [hstack] at hr <;> cases hr <;>
        exact ⟨x, hdeal, .inl ⟨rfl, hchan, hside, hrecv⟩⟩
    | waitReady p' =>
      obtain ⟨rfl, hchan, hside, hrecv⟩ := hf
      obtain ⟨rfl, hrep⟩ := Prod.mk.inj (Option.some.inj he)
      obtain rfl := hd.of_silent (by rw [hfr]; rfl)
      cases hready : (w.shared.packet p').ready with
      | false =>
        rw [hready] at hrep
        obtain ⟨rfl, -⟩ := hmore _ hrep.symm
        exact ⟨x, hdeal, .inl ⟨rfl, hchan, hside, hrecv⟩⟩
      | true =>
        rw [hready] at hrep
        obtain ⟨-, order, hr⟩ := hret _ hrep.symm
        cases hr
        exact ⟨x, hdeal, .inl ⟨rfl, hchan, hside, hrecv⟩⟩
    | takeMsg p' onStack => exact hw.finishTakeMsg hfr
    | dropPacket p' m => exact hw.finishDropPacket hfr
    | _ => exact hf.elim
  | chosen x' tk =>
    rw [hfr] at he
    cases he
  | _ => 
    rw [hfr] at hf
    exact hf.elim

/-- A thread inside `Context::with` leaves the deals alone that have been made. -/
theorem Deed.of_made (hd : Deed kind w t act g D D') (ha : Accounts kind w D) (hs : x.Sane)
    {pl : Place} (hmade : (stakes kind w t).made pl) (hdeal : D p = some x) (hm : x.partner ≠ none) :
    D' p = some x := by
  have inside : ¬ (w.thread t).frame.Calm kind := by
    intro hcalm
    rw [stakes, hcalm] at hmade
    exact hmade
  cases hd with
  | idle _ _ => exact hdeal
  | enter _ _ _ => exact Ledger.extends_put ha.unborn p x hdeal
  | meet _ _ _ _ _ _ hcomes _ => exact absurd hcomes.calm inside
  | back hz _ he hp _ _ _ _ _ =>
    refine (Ledger.put_of_ne ?_).trans hdeal
    rintro rfl
    obtain ⟨q, hq, y, hy, -, -, -, -, hoff⟩ := ha.queued _ _ _ hz (Accounts.found_unregister he).1
    obtain rfl := Option.some.inj (hp.symm.trans hq)
    obtain rfl := Option.some.inj (hdeal.symm.trans hy)
    exact (hs.met hm).1 hoff
  | fill hf _ _ _ _ _ _ _ => exact absurd (Frame.calm_of_touches hf) inside

/-- **A party that has been selected gets to know it**, and goes on with the packet. -/
theorem summoned_next (ha : Accounts kind w D) (hx : Stepped kind w w' t act th count)
    (hn : Frame.Next kind w.shared t (w.thread t).frame (w.thread t).prog act g pr')
    (hz : (kind q.place.chan).IsZero) (hmade : (stakes kind w t).made q.place)
    (hsel : (w.shared.reg.cx t).select = .operation (q.place.oper t))
    (hpacket : (w.shared.reg.cx t).packet = some p) :
    (g.stake kind pr').made q.place ∨ ∀ msg, g.Carries p q.place.chan q.place.side msg := by
  have htyped := hx.typed
  have hknows := hx.aware.knows t
  have htold := ha.told t
  rw [stakes] at hmade
  cases hfr : (w.thread t).frame with
  | select handles timeout st =>
    rw [hfr] at hn hknows hmade
    rcases hn.awaits_select hknows hsel hmade with hg | ⟨-, hcarry⟩
    · exact .inl hg
    · obtain ⟨p', x', hp', rfl, hchan, hside⟩ := hcarry hz
      obtain rfl := Option.some.inj (hpacket.symm.trans hp')
      exact .inr fun _ => ⟨rfl, hchan, hside⟩
  | zero job mode st =>
    rw [hfr] at hn hknows hmade
    cases st with
    | wait p' =>
      obtain rfl : p = p' := Option.some.inj (hpacket.symm.trans (htold p' _ (by rw [hfr]; rfl) hsel))
      have hplace : q.place = ⟨job.chan, job.side, 0⟩ := hmade
      cases hn with
      | more he => exact .inl hmade
      | ret he hr =>
        rename_i r
        cases r with
        | selected sel =>
          obtain ⟨hafter, -⟩ := Shared.waitUntil_selected he
          rw [Shared.cx_kept (by rw [hsel]; simp) fun _ hrenews => ?_, hsel] at hafter
          · subst hafter
            cases hr
            exact .inr fun _ => by rw [hplace]; exact ⟨rfl, rfl, rfl⟩
          · have hcalm := calm_of_renews (Shared.exec_explains he) hrenews
            exact absurd hcalm (Frame.not_calm_of_offers rfl)
        | _ => cases hr
    | withdraw p' sel => exact absurd hsel (hknows.2.2 _)
    | _ => exact hmade.elim
  | plain job mode st =>
    rw [hfr] at hmade htyped
    have halone : Frame.Alone kind job.chan job.side q.place := by
      cases st <;> first | exact hmade | exact hmade.2 | exact hmade.elim
    rw [halone.2] at hz
    exact absurd hz htyped.not_zero
  | _ =>
    rw [hfr] at hmade
    exact hmade.elim

/-- Who takes a step is in a call. -/
theorem call_of_next {f : Frame Tid T} {pr : Prog} (hn : Frame.Next kind w.shared t f pr act g pr') :
    f.call ≠ .none := by
  intro hcall
  obtain ⟨spurious, rep, he, -⟩ := hn.exec
  rw [hcall] at he
  cases he

theorem not_next_of_ended {f : Frame Tid T} {pr : Prog} (hf : f.ended = true) :
    ¬ Frame.Next kind w.shared t f pr act g pr' :=
  fun hn => call_of_next hn (call_of_ended hf)

/-- A turn of a party. -/
theorem Engaged.own (he : Engaged kind w p x q) (h : Engagements kind w D) (ha : Accounts kind w D)
    (hx : Stepped kind w w' t act th count) (hd : Deed kind w t act th.frame D D')
    (hthread : q.thread = t) (hdeal : D p = some x) (hm : x.partner ≠ none) (hq : x.Between q)
    (hdeal' : D' p = some y) (hy : y = x ∨ ∃ mv, x.next mv = some y) : Engaged kind w' p y q := by
  have hsane := h.sane p x hdeal
  have hquits : x.Quits q → y.Quits q := by
    intro hquit
    rcases hy with rfl | ⟨mv, hn⟩
    · exact hquit
    · exact hquit.next hsane hm hn
  have ⟨hs, _, _, _, ht, hafter⟩ := hx
  have hframe := hafter.frame
  have hops := hafter.ops
  cases he with
  | summoned howner hop hmade hsel hpacket =>
    rw [hthread] at hop hmade hsel hpacket
    obtain ⟨f, pr, rfl, hn⟩ := ht.in_body.resolve_right fun ⟨_, hcalm, _⟩ => by
      rw [stakes, hcalm] at hmade
      exact hmade
    -- It is inside `Context::with`, where it makes no move about a deal that has been made.
    have hkept : y = x := Option.some.inj (hdeal'.symm.trans (hd.of_made ha hsane hmade hdeal hm))
    subst hkept
    have hz : (kind q.place.chan).IsZero := by
      rw [← howner]
      exact h.zero p y hdeal
    -- It waits on, or it reads its context and has the packet from then on.
    rcases summoned_next ha hx hn hz hmade hsel hpacket with hg | hcarry
    · have hcx : w'.shared.reg.cx t = w.shared.reg.cx t := by
        rw [hafter.shared]
        refine Shared.cx_kept (by rw [hsel]; simp) fun _ hrenews => ?_
        obtain ⟨spurious, rep, hexec, -⟩ := hn.exec
        have hcalm := calm_of_renews (Shared.exec_explains hexec) hrenews (w.thread t).prog
        rw [stakes, hcalm] at hmade
        exact hmade
      refine .summoned howner ?_ ?_ ?_ ?_ <;> rw [hthread]
      · exact hop.trans hops.symm
      · rwa [stakes, hframe, hafter.prog]
      · rwa [hcx]
      · rwa [hcx]
    · refine .carries ?_ ?_ <;> rw [hthread]
      · exact hop.trans hops.symm
      · rw [hframe]
        exact hcarry _
  | carries hop hf =>
    rw [hthread] at hop hf
    have forth : Forth D' p q th.frame → th.ops = (w.thread t).ops → Engaged kind w' p y q := by
      rintro ⟨z, hz, hgo⟩ hsame
      obtain rfl := Option.some.inj (hdeal'.symm.trans hz)
      have hop' : q.op = (w'.thread q.thread).ops := by rw [hthread, hops, hsame, hop]
      rcases hgo with hf' | ⟨hf', hquit⟩
      · exact .carries hop' (by rw [hthread, hframe]; exact hf')
      · exact .done hop' (by rw [hthread, hframe]; exact hf') hquit
    cases ht with
    | next hn => exact forth (carries_next h ha hdeal hq hthread hf hn hd) rfl
    | start hover huses => rw [hf.not_ended] at hover; cases hover
    | drop hover hpos hfree => rw [hf.not_ended] at hover; cases hover
    | complete hframe' hside =>
      refine forth ⟨x, ?_, .inl ?_⟩ rfl
      · rw [hd.of_silent (by rw [hframe']; rfl)]
        exact hdeal
      · rename_i x' tk msg
        rw [hframe'] at hf
        cases tk with
        | packet p' =>
          obtain ⟨rfl, hchan, hd'⟩ := hf
          rw [← hchan, ← hd', ← hside]
          exact Accounts.finishWith_carries kind p' ⟨x'.chan, msg⟩ x.msg
        | _ => exact hf.elim
  | done hop hf hquit =>
    rw [hthread] at hop hf
    have hover : (w.thread t).frame.ended = true := by rw [hf]; rfl
    have gone : th.ops = (w.thread t).ops + 1 → Engaged kind w' p y q := fun hnew =>
      .gone (by rw [hthread, hops, hnew]; omega) (hquits hquit)
    cases ht with
    | next hn => exact absurd hn (not_next_of_ended hover)
    | start _ _ => exact gone rfl
    | drop _ _ _ => exact gone rfl
    | complete hframe' _ => rw [hframe'] at hf; cases hf
  | gone hop hquit =>
    rw [hthread] at hop
    refine .gone ?_ (hquits hquit)
    rw [hthread]
    exact Nat.lt_of_lt_of_le hop (hafter.ops_le ht t)

/-! ## A deal is made -/

namespace Meets

/-- The entry offers the packet. -/
theorem offers (hm : Meets kind w t act g D p c d e x y) (ha : Accounts kind w D) :
    x.owner.thread = e.owner ∧ x.owner.op = (w.thread e.owner).ops ∧
      x.owner.place = ⟨c, d, e.oper.slot⟩ ∧ e ∈ (w.shared.reg.waker c d).entries ∧
      e.owner ≠ t ∧ (w.shared.reg.cx e.owner).select = .waiting := by
  obtain ⟨hmem, hne, hwait⟩ := Waker.wakeOne_some hm.found
  obtain ⟨p', hp', x', hdeal, hthread, hop, hplace, -⟩ := ha.queued c d e hm.zero hmem
  obtain rfl := Option.some.inj (hm.packet.symm.trans hp')
  obtain rfl := Option.some.inj (hm.deal.symm.trans hdeal)
  exact ⟨hthread, hop, hplace, hmem, hne, hwait⟩

theorem parties (hm : Meets kind w t act g D p c d e x y) :
    y.owner = x.owner ∧ y.partner = some ⟨t, (w.thread t).ops, ⟨c, d.opposite, 0⟩⟩ := by
  have hnext := hm.next
  simp only [Lib.Deal.next] at hnext
  split at hnext <;> cases hnext
  exact ⟨rfl, rfl⟩

/-- Neither of the two is party to another deal. -/
theorem free (hm : Meets kind w t act g D p c d e x y) (h : Engagements kind w D)
    (ha : Accounts kind w D) (hs : Sound kind w) {p' : Nat} {x' : Lib.Deal (Party Tid) T}
    (hdeal : D p' = some x') (hmet : x'.partner ≠ none) (hq : x'.Between q) :
    q.ident ≠ ⟨t, (w.thread t).ops⟩ ∧ q.ident ≠ x.owner.ident := by
  obtain ⟨hthread, hop, hplace, hmem, hne, hwait⟩ := hm.offers ha
  have he := h.plays p' x' q hdeal hmet hq
  refine ⟨fun hident => ?_, fun hident => ?_⟩
  -- Who comes to a partner is at the beginning of its operation, or of a round of tries.
  · obtain ⟨hqt, hqop⟩ := Ident.mk.inj hident
    have hcalm : (w.thread t).frame.Calm kind := hm.comes.calm
    cases he with
    | summoned howner hop' hmade hsel hpacket =>
      rw [hqt, stakes, hcalm] at hmade
      exact hmade
    | carries hop' hf =>
      rw [hqt] at hf
      exact hf.not_comes hm.comes
    | done hop' hf hquit =>
      have hcomes := hm.comes
      rw [hqt] at hf
      rw [hf] at hcomes
      exact hcomes
    | gone hop' hquit =>
      rw [hqt, hqop] at hop'
      exact Nat.lt_irrefl _ hop'
  · obtain ⟨hqt, hqop⟩ := Ident.mk.inj hident
    rw [hthread] at hqt
    have hleft := hs.books.listed c d e hmem
    -- The owner of the entry is still waiting, so it has not been summoned and has nothing to carry.
    have busy : ¬ (w.thread e.owner).frame.Calm kind := by
      intro hcalm
      rw [stakes, hcalm] at hleft
      exact hleft
    cases he with
    | summoned howner hop' hmade hsel hpacket =>
      rw [hqt, hwait] at hsel
      cases hsel
    | carries hop' hf =>
      rw [hqt] at hf
      exact busy hf.calm
    | done hop' hf hquit =>
      rw [hqt] at hf
      refine busy (Frame.over_calm ?_)
      rw [hf]
      rfl
    | gone hop' hquit =>
      rw [hqt, hqop, hop] at hop'
      exact Nat.lt_irrefl _ hop'

/-- The two are on their way. -/
theorem engaged (hm : Meets kind w t act th.frame D p c d e x y) (ha : Accounts kind w D)
    (hx : Stepped kind w w' t act th count) (hq : y.Between q) : Engaged kind w' p y q := by
  obtain ⟨hthread, hop, hplace, hmem, hne, hwait⟩ := hm.offers ha
  obtain ⟨howner, hpartner⟩ := hm.parties
  have ⟨hs, _, _, _, ht, hafter⟩ := hx
  rcases hq with rfl | hq
  · have hcx : w'.shared.reg.cx e.owner =
        ({ w.shared.reg.cx e.owner with select := .operation e.oper } : Context Tid).storePacket
          e.packet := by
      rw [hafter.shared, hm.act]
      exact (Registry.wakeOne_cx hm.found e.owner).trans (if_pos rfl)
    have hself := hafter.others hne
    rw [hm.packet] at hcx
    have hat : y.owner.thread = e.owner := by rw [howner, hthread]
    refine .summoned rfl ?_ ?_ ?_ ?_ <;> rw [hat]
    · rw [howner, hop, hself]
    · rw [howner, hplace, stakes, hself]
      exact (hs.books.stake e.owner).sub _ (hs.books.listed c d e hmem)
    · rw [hcx, howner, hplace]
      rfl
    · rw [hcx]
      rfl
  · obtain rfl := Option.some.inj (hpartner.symm.trans hq)
    have hsame : th.ops = (w.thread t).ops := by
      have hcomes := hm.comes.not_ended
      cases ht with
      | next _ | complete _ _ => rfl
      | start hover _ | drop hover _ _ =>
        rw [hover] at hcomes
        cases hcomes
    refine .carries (hsame.symm.trans hafter.ops.symm) ?_
    dsimp only
    rw [hafter.frame]
    exact hm.carries _

end Meets

namespace Engagements

theorem plays_after (h : Engagements kind w D) (ha : Accounts kind w D)
    (hx : Stepped kind w w' t act th count) (hd : Deed kind w t act th.frame D D')
    (hdeal : D' p = some y) (hmet : y.partner ≠ none) (hq : y.Between q) : Engaged kind w' p y q := by
  rcases hd.made_before hdeal hmet with ⟨x, hx', hpartner, howner, hy⟩ | ⟨c, d, e, x, hm⟩
  · have hmet' : x.partner ≠ none := by rwa [hpartner]
    have hq' : x.Between q := by rwa [Lib.Deal.Between, hpartner, howner]
    have he := h.plays p x q hx' hmet' hq'
    by_cases hu : q.thread = t
    · exact he.own h ha hx hd hu hx' hmet' hq' hdeal hy
    · exact he.others h ha hx hu hx' hmet' hq' hy
  · exact hm.engaged ha hx hq

theorem once_after (h : Engagements kind w D) (ha : Accounts kind w D) (hs : Sound kind w)
    (hd : Deed kind w t act g D D') {p' : Nat} {y' : Lib.Deal (Party Tid) T} {q' : Party Tid}
    (hdeal : D' p = some y) (hdeal' : D' p' = some y') (hmet : y.partner ≠ none)
    (hmet' : y'.partner ≠ none) (hq : y.Between q) (hq' : y'.Between q')
    (hident : q.ident = q'.ident) : p = p' := by
  -- A deal that is made now involves nobody who was party to one before.
  have fresh : ∀ {p p'} {x x' y y' : Lib.Deal (Party Tid) T} {q q' : Party Tid} {c d e},
      Meets kind w t act g D p c d e x y → D p' = some x' →
      x'.partner = y'.partner → x'.owner = y'.owner → y'.partner ≠ none → y.Between q →
      y'.Between q' → q.ident ≠ q'.ident := by
    intro p p' x x' y y' q q' c d e hm hx' hpartner howner hmet' hq hq' hident
    have hq'' : x'.Between q' := by rwa [Lib.Deal.Between, hpartner, howner]
    obtain ⟨hno, hno'⟩ := hm.free h ha hs hx' (by rwa [hpartner]) hq''
    obtain ⟨hown, hpart⟩ := hm.parties
    rcases hq with rfl | hq
    · rw [hown] at hident
      exact hno' hident.symm
    · obtain rfl := Option.some.inj (hpart.symm.trans hq)
      exact hno hident.symm
  rcases hd.made_before hdeal hmet with ⟨x, hx, hpartner, howner, -⟩ | ⟨c, d, e, x, hm⟩ <;>
    rcases hd.made_before hdeal' hmet' with ⟨x', hx', hpartner', howner', -⟩ | ⟨c', d', e', x', hm'⟩
  · exact h.once p x q p' x' q' hx hx' (by rwa [hpartner]) (by rwa [hpartner'])
      (by rwa [Lib.Deal.Between, hpartner, howner]) (by rwa [Lib.Deal.Between, hpartner', howner'])
      hident
  · exact absurd hident.symm (fresh hm' hx hpartner howner hmet hq' hq)
  · exact absurd hident (fresh hm hx' hpartner' howner' hmet' hq hq')
  · have hact := hm.act.symm.trans hm'.act
    cases hact
    obtain rfl := Option.some.inj (hm.found.symm.trans hm'.found)
    exact Option.some.inj (hm.packet.symm.trans hm'.packet)

end Engagements

/-! ## A deal that is not made -/

omit [DecidableEq Tid] in
/-- What a step puts into a queue is there afterwards. -/
theorem mem_of_enters [DecidableEq Tid] {w : Shared Tid T} (h : Shared.Enters w t c d e act) :
    e ∈ ((w.apply t act).reg.waker c d).entries := by
  have registered : ∀ {r : Registry Tid}, e ∈ ((r.register c d e).waker c d).entries := by
    intro r
    rw [Registry.register, (Registry.setWaker_self _ _ _).1]
    exact List.mem_append_right _ (List.mem_singleton_self e)
  cases act with
  | register _ _ _ | offer _ _ _ | queue _ _ _ =>
    obtain ⟨rfl, rfl, rfl⟩ := h
    exact registered
  | _ => exact h.elim

/-- An offer that is still queued stands. -/
theorem Loose.stands (hx : Stepped kind w w' t act th count)
    (hop : x.owner.op = (w.thread x.owner.thread).ops) (hst : x.stage = .offered)
    (he : ⟨x.owner.place.oper x.owner.thread, some p⟩ ∈
      (w.shared.reg.waker x.owner.place.chan x.owner.place.side).entries)
    (hstays : ⟨x.owner.place.oper x.owner.thread, some p⟩ ∈
      ((w.shared.apply t act).reg.waker x.owner.place.chan x.owner.place.side).entries) :
    Loose w' p x := by
  have ⟨hs, _, _, _, ht, hafter⟩ := hx
  refine .offered ?_ hst (by rwa [hafter.shared])
  by_cases hu : x.owner.thread = t
  · obtain ⟨f, pr, rfl, -⟩ := ht.of_inside (hu ▸ inside_of_listed hs he)
    rw [hu, hafter.ops, hop, hu]
  · rw [hafter.others hu, hop]

omit [DecidableEq Tid] in
/-- Who has recalled a packet empties it or frees it. -/
theorem move_of_recalls {f : Frame Tid T} (h : f.recalls = some p) :
    f.call.move = some (p, (.take : Lib.Deal.Move (Party Tid) T)) ∨
      f.call.move = some (p, (.free : Lib.Deal.Move (Party Tid) T)) := by
  unfold Frame.recalls at h
  split at h <;> cases h
  · exact .inl rfl
  · exact .inr rfl

theorem act_of_move {call : Call T} {w : Shared Tid T} {pr : Prog} {spurious : Bool}
    {rep : Reply Tid T} (hcall : call.move = some (p, mv))
    (he : w.exec t kind call pr spurious = some (act, rep)) :
    act = .silent ∨ ∃ v, act = .setPacket p v := by
  cases call <;> cases hcall
  · exact .inr ⟨_, (Prod.mk.inj (Option.some.inj he)).1.symm⟩
  · exact .inr ⟨_, (Prod.mk.inj (Option.some.inj he)).1.symm⟩
  · exact .inr ⟨_, (Prod.mk.inj (Option.some.inj he)).1.symm⟩
  · exact .inl (Prod.mk.inj (Option.some.inj he)).1.symm

/-- A call that makes a move about a packet makes it in the ledger. -/
theorem Deed.moves (hd : Deed kind w t act th.frame D D') (hx : Stepped kind w w' t act th count)
    (hcall : (w.thread t).frame.call.move = some (p, mv)) (hdeal : D p = some x) :
    ∃ y, x.next mv = some y ∧ D' p = some y := by
  have ⟨_, _, _, _, ht, _⟩ := hx
  have running : ∀ {call : Call T}, call = .none →
      call.move ≠ some (p, (mv : Lib.Deal.Move (Party Tid) T)) := by
    rintro _ rfl hno
    cases hno
  cases ht with
  | next hn =>
    obtain ⟨spurious, rep, he, -⟩ := hn.exec
    exact hd.of_move hcall (act_of_move hcall he) hdeal
  | start hover _ | drop hover _ _ => exact absurd hcall (running (call_of_ended hover))
  | complete hf _ => exact absurd hcall (running (by rw [hf]; rfl))

omit [DecidableEq Tid] in
theorem over_of_withdrawn (hst : x.stage = .withdrawn) (hn : x.next mv = some y) : y.stage = .over := by
  cases mv <;> simp [Lib.Deal.next, hst] at hn
  · rw [← hn.2]
  · rw [← hn.2]

/-- **A deal that nobody has come to is brought to its end by its owner.** -/
theorem Engagements.loose_after (h : Engagements kind w D)
    (hx : Stepped kind w w' t act th count) (hd : Deed kind w t act th.frame D D')
    (hdeal : D' p = some y) (hun : y.partner = none) : Loose w' p y := by
  have ⟨hs, _, _, _, ht, hafter⟩ := hx
  -- A deal the step does not touch.
  have still : D p = some y →
      (∀ c d, (kind c).IsZero → act = .wakeOne c d → ∀ e, (w.shared.reg.wakeOne c d t).1 = some e →
        e.packet ≠ some p) →
      (∀ c d slot, (kind c).IsZero → act = .unregister c d slot → ∀ e,
        (w.shared.reg.unregister c d ⟨t, slot⟩).1 = some e → e.packet ≠ some p) → Loose w' p y := by
    intro hold hwake hback
    cases h.loose p y hold hun with
    | closed hst => exact .closed hst
    | left hst hkept hgives => exact .left hst hkept hgives
    | recalled hop hst hf =>
      have hu : y.owner.thread ≠ t := by
        rintro rfl
        -- If the owner itself takes its step, the deal is over by that and not withdrawn any more.
        have recalls : ∀ {mv : Lib.Deal.Move (Party Tid) T},
            (w.thread y.owner.thread).frame.call.move ≠ some (p, mv) := by
          intro mv hcall
          obtain ⟨z, hn, hz⟩ := hd.moves hx hcall hold
          obtain rfl := Option.some.inj (hdeal.symm.trans hz)
          rw [over_of_withdrawn hst hn] at hst
          cases hst
        rcases move_of_recalls hf with hcall | hcall <;> exact recalls hcall
      exact .recalled (by rwa [hafter.others hu]) hst (by rwa [hafter.others hu])
    | offered hop hst he =>
      refine .stands hx hop hst he ?_
      have hz := h.zero p y hold
      -- An entry leaves its queue in two ways only, and either is a move in the deal about its packet.
      rcases Shared.remains hs.books he with hstays | ⟨hact, hfound⟩ | ⟨slot, hact, hfound⟩
      · exact hstays
      · exact absurd rfl (hwake _ _ hz hact _ hfound)
      · exact absurd rfl (hback _ _ _ hz hact _ hfound)
  have other : ∀ {r z}, D' = D.put r z → p ≠ r → D p = some y := by
    rintro r z rfl hr
    rwa [Ledger.put_of_ne hr] at hdeal
  have self : ∀ {r z}, D' = D.put r z → p = r → z = y := by
    rintro r z rfl rfl
    rw [Ledger.put_self] at hdeal
    exact Option.some.inj hdeal
  cases hd with
  | idle hcall hq =>
    exact still hdeal (fun c d hz hact e he => absurd he (hq.wake c d e hz hact))
      (fun c d slot hz hact e he => absurd he (hq.unregister c d slot e hz hact))
  | enter hz hreg hstack =>
    rename_i pl v
    by_cases hp : p = w.shared.fresh
    · obtain rfl := self rfl hp
      subst hp
      have henters : Shared.Enters w.shared t pl.chan pl.side ⟨pl.oper t, some w.shared.fresh⟩ act := by
        rcases hreg with ⟨rfl, -⟩ | ⟨rfl, hslot⟩
        · exact ⟨rfl, rfl, rfl⟩
        · exact ⟨rfl, rfl, by rw [Place.oper, hslot]⟩
      obtain ⟨f, pr, rfl, -⟩ := ht.of_enters henters
      refine .offered hafter.ops.symm rfl ?_
      rw [hafter.shared]
      exact mem_of_enters henters
    · refine still (other rfl hp) ?_ ?_ <;> rcases hreg with ⟨rfl, -⟩ | ⟨rfl, -⟩
      all_goals
        intros
        contradiction
  | meet hz hact he hpk hdeal' hnext hcomes hcarry =>
    rename_i c d e r x z
    by_cases hp : p = r
    · obtain rfl := self rfl hp
      simp only [Lib.Deal.next] at hnext
      split at hnext <;> cases hnext
      cases hun
    · refine still (other rfl hp) ?_ ?_
      · rintro c' d' hz' rfl e' he' hpk'
        cases hact
        obtain rfl := Option.some.inj (he.symm.trans he')
        exact hp (Option.some.inj (hpk'.symm.trans hpk))
      · rintro c' d' slot hz' rfl
        cases hact
  | back hz hact he hpk hdeal' hnext howner hcall hrest =>
    rename_i c slot d e r x z mv
    by_cases hp : p = r
    · obtain rfl := self rfl hp
      subst hp
      have hoffered : x.stage = .offered ∧ x.partner = z.partner := by
        refine ⟨?_, ?_⟩
        · rcases hcall with ⟨rfl, -⟩ | ⟨rfl, -⟩ <;> by_contra hno <;> simp [Lib.Deal.next, hno] at hnext
        · refine (Lib.Deal.next_partner hnext fun q => ?_).symm
          rcases hcall with ⟨rfl, -⟩ | ⟨rfl, -⟩ <;> simp
      obtain ⟨hst, hpartner⟩ := hoffered
      obtain ⟨f, pr, rfl, -⟩ := ht.in_body.resolve_right fun hno => by
        cases hact.symm.trans hno.1
      rcases hcall with ⟨rfl, -⟩ | ⟨rfl, -⟩
      · have hz' : z = { x with stage := .withdrawn } := by
          simpa [Lib.Deal.next, hst] using hnext.symm
        rcases hrest (by rw [hz']) with ⟨hkept, hgives⟩ | hrecalls
        · exact .left (by rw [hz']) hkept hgives
        · cases h.loose p x hdeal' (hpartner.trans hun) with
          | offered hop hst' he' =>
            have hown := (Lib.Deal.next_static hnext).1
            refine .recalled ?_ (by rw [hz']) ?_ <;> rw [hown, howner]
            · rw [hop, howner, hafter.ops]
            · rwa [hafter.frame]
          | closed hst' | left hst' _ _ | recalled _ hst' _ =>
            rw [hst] at hst'
            cases hst'
      · refine .closed ?_
        simp only [Lib.Deal.next] at hnext
        split at hnext <;> cases hnext
        rfl
    · refine still (other rfl hp) ?_ ?_
      · rintro c' d' hz' rfl
        cases hact
      · rintro c' d' slot' hz' rfl e' he' hpk'
        cases hact
        obtain rfl := Option.some.inj (he.symm.trans he')
        exact hp (Option.some.inj (hpk'.symm.trans hpk))
  | fill hf hdeal' hnext hactor hthread hst hact hcall =>
    rename_i r x z mv a
    by_cases hp : p = r
    · obtain rfl := self rfl hp
      subst hp
      have hpartner : x.partner = none := by
        refine (Lib.Deal.next_partner hnext ?_).symm.trans hun
        rintro q rfl
        simp only [Lib.Deal.next, if_neg hst] at hnext
        cases hnext
      cases h.loose p x hdeal' hpartner with
      | closed hover =>
        rw [Lib.Deal.next_over hover] at hnext
        cases hnext
      | left hst' hkept hgives =>
        cases mv <;> simp [Lib.Deal.next, Lib.Deal.prefilled, hst', hkept, hgives] at hnext
      | recalled hop hst' hf' => exact .closed (over_of_withdrawn hst' hnext)
      | offered hop hst' he' => exact absurd hst' hst
    · refine still (other rfl hp) ?_ ?_ <;> rcases hact with rfl | ⟨v, rfl⟩
      all_goals
        intros
        contradiction

/-! ## One turn -/

/-- A deal after a turn: it has just begun, or it is an old one of the same owner. -/
theorem Deed.static (hd : Deed kind w t act g D D') (hp : D' p = some y) :
    (∃ x, D p = some x ∧ y.owner = x.owner ∧ (y = x ∨ ∃ mv, x.next mv = some y)) ∨
      ∃ pl v, y = Accounts.offered w t pl v ∧ (kind pl.chan).IsZero := by
  rcases hd.before hp with hold | ⟨-, hnew⟩ | ⟨x, mv, hdeal, hn, -⟩ | ⟨c, d, e, x, hm⟩
  · exact .inl ⟨y, hold, rfl, .inl rfl⟩
  · exact .inr hnew
  · exact .inl ⟨x, hdeal, (Lib.Deal.next_static hn).1, .inr ⟨mv, hn⟩⟩
  · exact .inl ⟨x, hm.deal, (Lib.Deal.next_static hm.next).1, .inr ⟨_, hm.next⟩⟩

/-- **Every turn keeps what is known of the deals.** -/
theorem Engagements.after (h : Engagements kind w D) (ha : Accounts kind w D)
    (ha' : Accounts kind w' D') (hx : Stepped kind w w' t act th count)
    (hd : Deed kind w t act th.frame D D') : Engagements kind w' D' where
  sane := by
    intro p y hy
    rcases hd.static hy with ⟨x, hdeal, -, rfl | ⟨mv, hn⟩⟩ | ⟨pl, v, rfl, -⟩
    · exact h.sane p y hdeal
    · exact (h.sane p x hdeal).next hn
    · obtain ⟨-, hmsg, hfull⟩ := (ha'.shows p _ hy).fits
      refine ⟨fun _ => .inl rfl, fun hno => absurd rfl hno, fun hpre _ => ?_, fun hany => ?_,
        fun hno => (by cases hno), fun hno => (by cases hno)⟩
      · rw [hmsg, hpre] at hfull
        exact Option.not_isSome_iff_eq_none.mp (by simp [hfull])
      · rcases hany with hpre | hno | hno | hno | ⟨hno, -⟩
        · rw [← hmsg, hfull, hpre]
        · cases hno
        · cases hno
        · cases hno
        · exact absurd rfl hno
  zero := by
    intro p y hy
    rcases hd.static hy with ⟨x, hdeal, howner, -⟩ | ⟨pl, v, rfl, hz⟩
    · rw [howner]
      exact h.zero p x hdeal
    · exact hz
  known := by
    intro p y hy
    have le := hx.after.ops_le hx.turn
    rcases hd.static hy with ⟨x, hdeal, howner, -⟩ | ⟨pl, v, rfl, hz⟩
    · rw [howner]
      exact Nat.le_trans (h.known p x hdeal) (le _)
    · exact le t
  partner := by
    intro p y q hy hq
    rcases hd.made_before hy (by rw [hq]; simp) with ⟨x, hdeal, hpartner, howner, -⟩ | ⟨c, d, e, x, hm⟩
    · rw [← howner]
      exact h.partner p x q hdeal (hpartner.trans hq)
    · obtain ⟨hown, hpart⟩ := hm.parties
      obtain ⟨hthread, -, hplace, -, hne, -⟩ := hm.offers ha
      obtain rfl := Option.some.inj (hpart.symm.trans hq)
      rw [hown, hthread, hplace]
      exact ⟨hne.symm, rfl⟩
  plays := fun p y q hy hmet hq => h.plays_after ha hx hd hy hmet hq
  once := fun p y q p' y' q' hy hy' hmet hmet' hq hq' hident =>
    h.once_after ha hx.sound hd hy hy' hmet hmet' hq hq' hident
  loose := fun p y hy hun => h.loose_after hx hd hy hun

end World

end CrossbeamChannel
