import CrossbeamChannel.World.Exchange

/-!
# Sends and receives of zero channels, one to one

What the history of every run says of the sends, the receives and the packets of the zero channels:
`World.Rendezvous`, proved from the ledger in `World.rendezvous_one_to_one`.

`Rendezvous` does not mention the ledger, the places of the bodies or the contexts; of the state it only
uses which operations are still running. A packet is filled and emptied once at most. One on a stack is
left alone from the return of its owner on (`zero.rs` 347 and 415 wait for that), one on the heap from the
moment it is freed, which happens once.
-/

namespace CrossbeamChannel

variable {Tid T : Type}

/-- What happens at most once happens at one place. -/
theorem eq_of_countP_le_one {α : Type} {P : α → Bool} {l : List α} (hone : l.countP P ≤ 1) {i j : Nat}
    {a b : α} (hi : l[i]? = some a) (hj : l[j]? = some b) (ha : P a = true) (hb : P b = true) : i = j := by
  induction l generalizing i j with
  | nil => cases hi
  | cons c l ih =>
    -- One at the head leaves none to the tail.
    have none_left : ∀ {k : Nat} {d e : α}, c = d → P d = true → l[k]? = some e → ¬ P e = true := by
      rintro k d e rfl hd hk he
      have hpos : 0 < l.countP P := List.countP_pos_iff.mpr ⟨e, List.mem_of_getElem? hk, he⟩
      rw [List.countP_cons_of_pos hd] at hone
      omega
    cases i with
    | zero =>
      cases j with
      | zero => rfl
      | succ j => exact absurd hb (none_left (Option.some.inj hi) ha hj)
    | succ i =>
      cases j with
      | zero => exact absurd ha (none_left (Option.some.inj hj) hb hi)
      | succ j =>
        have hle : l.countP P ≤ (c :: l).countP P := (List.sublist_cons_self c l).countP_le
        rw [ih (Nat.le_trans hle hone) hi hj]

namespace Event

variable {e : Event Tid T} {p : Nat}

theorem of_met (h : e.marks p .met = true) : ∃ a b c, e = .pair a b c p := by
  cases e <;> simp [marks] at h
  exact ⟨_, _, _, by rw [h]⟩

theorem of_shown (h : e.marks p .shown = true) : ∃ a, e = .setReady a p := by
  cases e <;> simp [marks] at h
  exact ⟨_, by rw [h]⟩

end Event

namespace World

/-- **Sends and receives of the zero channels correspond one to one**, and every packet is handed from
    one to the other. -/
structure Rendezvous (kind : Nat → Kind T) (w : World Tid T) (h : List (Event Tid T)) : Prop where
  /-- An operation is paired at most once, and so is a packet. -/
  once : ∀ (i j : Nat) a b c p a' b' c' p', h[i]? = some (.pair a b c p) →
    h[j]? = some (.pair a' b' c' p') →
    a = a' ∨ b = b' ∨ a = b' ∨ b = a' ∨ p = p' → i = j
  /-- A thread never pairs with itself. -/
  apart : ∀ a b c p, .pair a b c p ∈ h → a.thread ≠ b.thread
  /-- A send and a receive of one channel are paired. -/
  sides : ∀ a b c p, .pair a b c p ∈ h → (kind c).IsZero ∧
    (∀ j, .ask a j ∈ h → ∃ m, j = ⟨c, some m⟩) ∧ ∀ j, .ask b j ∈ h → j = ⟨c, none⟩
  sent : ∀ a c m out, (kind c).IsZero → .ask a ⟨c, some m⟩ ∈ h → .over a out ∈ h →
    (out = .ok none ∧ ∃ b p, .pair a b c p ∈ h ∧ (.over b (.ok (some m)) ∈ h ∨ w.Running b)) ∨
      (out.Refuses (some m) ∧ ∀ b c' p, .pair a b c' p ∉ h)
  received : ∀ b c out, (kind c).IsZero → .ask b ⟨c, none⟩ ∈ h → .over b out ∈ h →
    (∃ a m p, out = .ok (some m) ∧ .pair a b c p ∈ h ∧ .ask a ⟨c, some m⟩ ∈ h ∧
        (.over a (.ok none) ∈ h ∨ w.Running a)) ∨
      (out.Refuses none ∧ ∀ a c' p, .pair a b c' p ∉ h)
  filled : ∀ p, h.countP (Event.marks p .filled) ≤ 1
  emptied : ∀ p, h.countP (Event.marks p .emptied) ≤ 1
  /-- The owner of a stack packet returns when its partner has set `ready`, and nobody works on the
      packet from then on. -/
  stack : ∀ o p v, .offer o p v ∈ h → v.onStack = true → ∀ (i : Nat) out, h[i]? = some (.over o out) →
    (∀ (j : Nat) e a, i < j → h[j]? = some e → e.touch ≠ some (a, p)) ∧
      ∀ a b c, .pair a b c p ∈ h → ∃ (j : Nat) (q : Ident Tid), j < i ∧
        h[j]? = some (.setReady q p) ∧ (q = a ∨ q = b) ∧ q ≠ o
  /-- A heap packet is freed when neither its owner nor who receives by it is running any more. -/
  heap : ∀ o p v, .offer o p v ∈ h → v.onStack = false →
    h.countP (Event.marks p .freed) = 1 ∨
      h.countP (Event.marks p .freed) = 0 ∧ ∃ a, w.Running a ∧ (a = o ∨ ∃ s c, .pair s a c p ∈ h)
  /-- It is freed by who receives, or by its owner when it was not selected, and nobody works on it from
      then on. -/
  freed : ∀ (i : Nat) a p, h[i]? = some (.free a p) →
    (∀ (j : Nat) e b, i < j → h[j]? = some e → e.touch ≠ some (b, p)) ∧
      ∃ o v, .offer o p v ∈ h ∧ v.onStack = false ∧
        ((a = o ∧ ∀ s b c, .pair s b c p ∉ h) ∨ ∃ s c, .pair s a c p ∈ h)

variable {kind : Nat → Kind T} {w : World Tid T} {D : Ledger Tid T} {h : List (Event Tid T)} {p : Nat}
  {x : Lib.Deal (Party Tid) T} {q : Party Tid} {a b o : Ident Tid} {c : Nat} {out : Outcome T}

namespace Chronicle

/-- What has been done about a packet has been written down. -/
theorem mem_of_has (hc : Chronicle kind w D h) (hdeal : D p = some x) {k : Lib.Deal.Mark}
    (hk : x.has k = true) : ∃ e ∈ h, e.marks p k = true := by
  refine List.countP_pos_iff.mp ?_
  rw [hc.recorded.marks, hdeal, Option.elim_some, hk]
  exact Nat.one_pos

theorem marks_le (hc : Chronicle kind w D h) (p : Nat) (k : Lib.Deal.Mark) :
    h.countP (Event.marks p k) ≤ 1 := by
  rw [hc.recorded.marks]
  cases D p with
  | none => exact Nat.zero_le _
  | some x => exact Bool.toNat_le _

/-- The two of a deal that has been made are paired. -/
theorem pair_of_made (hc : Chronicle kind w D h) (hdeal : D p = some x) (hm : x.partner ≠ none) :
    ∃ s r, x.giver = some s ∧ x.taker = some r ∧
      .pair s.ident r.ident x.owner.place.chan p ∈ h := by
  obtain ⟨e, he, hmark⟩ := hc.mem_of_has (k := .met) hdeal (Option.isSome_iff_ne_none.mpr hm)
  obtain ⟨a, b, c, rfl⟩ := Event.of_met hmark
  obtain ⟨x', s, r, hdeal', -, hgiver, htaker, rfl, rfl, rfl⟩ := hc.recorded.paired a b c p he
  obtain rfl := Option.some.inj (hdeal.symm.trans hdeal')
  exact ⟨s, r, hgiver, htaker, he⟩

/-- Who has returned from a deal has handed a message over. -/
theorem handed_of_over (hc : Chronicle kind w D h) (hdeal : D p = some x) (hm : x.partner ≠ none)
    (hq : x.Between q) (hover : .over q.ident out ∈ h) :
    ∃ m, x.msg = some m ∧ out = Frame.handed (some m) q.place.side := by
  have hquit := (hc.engagements.plays p x q hdeal hm hq).running_or.resolve_left
    (hc.attested.not_running hover)
  have hfull := (hc.engagements.sane p x hdeal).full
  have hsome : x.msg.isSome := by
    rcases hq.gives_or_takes with hg | ht
    · rcases hquit.1 hg with hst | ⟨-, hst | hst⟩
      · exact hfull (.inr (.inr (.inr (.inr ⟨hm, hst⟩))))
      · exact hfull (.inr (.inr (.inl hst)))
      · exact hfull (.inr (.inr (.inr (.inl hst))))
    · exact hfull (.inr (.inr (.inr (.inr ⟨hm, hquit.2 ht⟩))))
  obtain ⟨m, hmsg⟩ := Option.isSome_iff_exists.mp hsome
  exact ⟨m, hmsg, hmsg ▸ hc.honoured.ends p x q out hdeal hm hq hover⟩

/-- The message that is handed over is the one its giver was asked to send. -/
theorem asked_of_msg (hc : Chronicle kind w D h) (hdeal : D p = some x) {m : T} (hmsg : x.msg = some m)
    (hg : x.giver = some q) : .ask q.ident ⟨q.place.chan, some m⟩ ∈ h := by
  obtain ⟨q', hg', hask⟩ := hc.honoured.origin p x m hdeal hmsg
  obtain rfl := Option.some.inj (hg.symm.trans hg')
  rwa [hc.engagements.chan hdeal (Lib.Deal.between_of_giver hg)]

/-- A send that is in a deal gives, and a receive takes. -/
theorem gives_of_ask (hc : Chronicle kind w D h) (hdeal : D p = some x) (hm : x.partner ≠ none)
    (hq : x.Between q) {j : Job T} (hask : .ask q.ident j ∈ h) :
    (j.side = .send → x.giver = some q) ∧ (j.side = .recv → x.taker = some q) := by
  have hside := (hc.honoured.roles p x q j hdeal hm hq hask).2
  obtain ⟨hgives, htakes⟩ := hc.engagements.sides hc.accounts hdeal (q := q)
  refine ⟨fun hj => ?_, fun hj => ?_⟩ <;> rw [hside] at hj <;> rcases hq.gives_or_takes with hg | ht
  · exact hg
  · cases hj.symm.trans (htakes ht)
  · cases hj.symm.trans (hgives hg)
  · exact ht

/-- Who is paired is in a deal. -/
theorem met_of_pair (hc : Chronicle kind w D h) (he : .pair a b c p ∈ h) :
    ¬ D.Unmet a ∧ ¬ D.Unmet b := by
  obtain ⟨x, s, r, hdeal, hm, hgiver, htaker, rfl, rfl, -⟩ := hc.recorded.paired a b c p he
  exact ⟨fun hun => hun p x s hdeal hm (Lib.Deal.between_of_giver hgiver) rfl,
    fun hun => hun p x r hdeal hm (Lib.Deal.between_of_taker htaker) rfl⟩

theorem deal_of_met (hun : ¬ D.Unmet a) :
    ∃ p x q, D p = some x ∧ x.partner ≠ none ∧ x.Between q ∧ q.ident = a := by
  by_contra hno
  exact hun fun p x q hdeal hm hq hident => hno ⟨p, x, q, hdeal, hm, hq, hident⟩

/-- Who has been asked for something is in a deal at that channel. -/
theorem chan_of_ask (hc : Chronicle kind w D h) (hdeal : D p = some x) (hm : x.partner ≠ none)
    (hq : x.Between q) {job : Job T} (hask : .ask q.ident job ∈ h) : x.owner.place.chan = job.chan := by
  rw [← hc.engagements.chan hdeal hq]
  exact (hc.honoured.roles p x q _ hdeal hm hq hask).1.symm

/-- **What becomes of a send.** -/
theorem sent (hc : Chronicle kind w D h) {m : T} (hz : (kind c).IsZero)
    (hask : .ask a ⟨c, some m⟩ ∈ h) (hover : .over a out ∈ h) :
    (out = .ok none ∧ ∃ b p, .pair a b c p ∈ h ∧ (.over b (.ok (some m)) ∈ h ∨ w.Running b)) ∨
      (out.Refuses (some m) ∧ ∀ b c' p, .pair a b c' p ∉ h) := by
  by_cases hun : D.Unmet a
  · exact .inr ⟨hc.honoured.fails a out _ hz hask hover hun, fun b c' p he => (hc.met_of_pair he).1 hun⟩
  · obtain ⟨p, x, q, hdeal, hm, hq, rfl⟩ := deal_of_met hun
    have hg := (hc.gives_of_ask hdeal hm hq hask).1 rfl
    obtain ⟨s, r, hs, hr, he⟩ := hc.pair_of_made hdeal hm
    obtain rfl := Option.some.inj (hg.symm.trans hs)
    obtain ⟨hgives, -⟩ := hc.engagements.sides hc.accounts hdeal (q := q)
    obtain ⟨-, htakes⟩ := hc.engagements.sides hc.accounts hdeal (q := r)
    obtain ⟨m', hmsg, rfl⟩ := hc.handed_of_over hdeal hm hq hover
    have hsame := hc.attested.once _ _ _ hask (hc.asked_of_msg hdeal hmsg hg)
    rw [hc.chan_of_ask hdeal hm hq hask] at he
    refine .inl ⟨by rw [hgives hg]; rfl, r.ident, p, he, ?_⟩
    have hr' := Lib.Deal.between_of_taker hr
    rcases hc.honoured.settled p x r hdeal hr' with hrun | ⟨out', hover'⟩
    · exact .inr hrun
    · obtain ⟨m'', hmsg', rfl⟩ := hc.handed_of_over hdeal hm hr' hover'
      rw [htakes hr, ← hmsg', hmsg, ← (Job.mk.inj hsame).2] at hover'
      exact .inl hover'

/-- **What becomes of a receive.** -/
theorem received (hc : Chronicle kind w D h) (hz : (kind c).IsZero)
    (hask : .ask b ⟨c, none⟩ ∈ h) (hover : .over b out ∈ h) :
    (∃ a m p, out = .ok (some m) ∧ .pair a b c p ∈ h ∧ .ask a ⟨c, some m⟩ ∈ h ∧
        (.over a (.ok none) ∈ h ∨ w.Running a)) ∨
      (out.Refuses none ∧ ∀ a c' p, .pair a b c' p ∉ h) := by
  by_cases hun : D.Unmet b
  · exact .inr ⟨hc.honoured.fails b out _ hz hask hover hun, fun a c' p he => (hc.met_of_pair he).2 hun⟩
  · obtain ⟨p, x, q, hdeal, hm, hq, rfl⟩ := deal_of_met hun
    have ht := (hc.gives_of_ask hdeal hm hq hask).2 rfl
    obtain ⟨s, r, hs, hr, he⟩ := hc.pair_of_made hdeal hm
    obtain rfl := Option.some.inj (ht.symm.trans hr)
    obtain ⟨-, htakes⟩ := hc.engagements.sides hc.accounts hdeal (q := q)
    obtain ⟨hgives, -⟩ := hc.engagements.sides hc.accounts hdeal (q := s)
    obtain ⟨m, hmsg, rfl⟩ := hc.handed_of_over hdeal hm hq hover
    have hs' := Lib.Deal.between_of_giver hs
    have hchan := hc.chan_of_ask hdeal hm hq hask
    have hsaid := hc.asked_of_msg hdeal hmsg hs
    rw [hc.engagements.chan hdeal hs', hchan] at hsaid
    rw [hchan] at he
    refine .inl ⟨s.ident, m, p, by rw [htakes ht]; rfl, he, hsaid, ?_⟩
    rcases hc.honoured.settled p x s hdeal hs' with hrun | ⟨out', hover'⟩
    · exact .inr hrun
    · obtain ⟨m', -, rfl⟩ := hc.handed_of_over hdeal hm hs' hover'
      rw [hgives hs] at hover'
      exact .inl hover'

theorem sides (hc : Chronicle kind w D h) (he : .pair a b c p ∈ h) :
    (kind c).IsZero ∧ (∀ j, .ask a j ∈ h → ∃ m, j = ⟨c, some m⟩) ∧ ∀ j, .ask b j ∈ h → j = ⟨c, none⟩ := by
  obtain ⟨x, s, r, hdeal, hm, hs, hr, rfl, rfl, rfl⟩ := hc.recorded.paired a b c p he
  have hs' := Lib.Deal.between_of_giver hs
  have hr' := Lib.Deal.between_of_taker hr
  obtain ⟨hgives, -⟩ := hc.engagements.sides hc.accounts hdeal (q := s)
  obtain ⟨-, htakes⟩ := hc.engagements.sides hc.accounts hdeal (q := r)
  refine ⟨hc.engagements.zero p x hdeal, ?_, ?_⟩
  · rintro ⟨c, msg⟩ hask
    obtain ⟨hchan, hside⟩ := hc.honoured.roles p x s _ hdeal hm hs' hask
    rw [hgives hs] at hside
    rw [hc.engagements.chan hdeal hs'] at hchan
    cases msg with
    | none => cases hside
    | some m => exact ⟨m, by rw [← hchan]⟩
  · rintro ⟨c, msg⟩ hask
    obtain ⟨hchan, hside⟩ := hc.honoured.roles p x r _ hdeal hm hr' hask
    rw [htakes hr] at hside
    rw [hc.engagements.chan hdeal hr'] at hchan
    cases msg with
    | none => rw [← hchan]
    | some m => cases hside

theorem apart (hc : Chronicle kind w D h) (he : .pair a b c p ∈ h) : a.thread ≠ b.thread := by
  obtain ⟨x, s, r, hdeal, -, hs, hr, rfl, rfl, -⟩ := hc.recorded.paired a b c p he
  exact hc.engagements.apart hdeal hs hr

/-- Nobody works on the packet after this. -/
theorem untouched (hc : Chronicle kind w D h) {i j : Nat} {e e' : Event Tid T} (hij : i < j)
    (hi : h[i]? = some e) (hj : h[j]? = some e') (htouch : e'.touch = some (a, p)) :
    (∀ b, e ≠ .free b p) ∧ ∀ x out, D p = some x → x.kept = true → e ≠ .over x.owner.ident out := by
  obtain ⟨hi', rfl⟩ := List.getElem?_eq_some_iff.mp hi
  obtain ⟨hj', rfl⟩ := List.getElem?_eq_some_iff.mp hj
  exact List.pairwise_iff_getElem.mp hc.honoured.order i j hi' hj' hij a p htouch

theorem once (hc : Chronicle kind w D h) {i j : Nat} {a' b' : Ident Tid} {c' p' : Nat}
    (hi : h[i]? = some (.pair a b c p)) (hj : h[j]? = some (.pair a' b' c' p'))
    (hsame : a = a' ∨ b = b' ∨ a = b' ∨ b = a' ∨ p = p') : i = j := by
  obtain ⟨x, s, r, hdeal, hm, hs, hr, rfl, rfl, -⟩ :=
    hc.recorded.paired a b c p (List.mem_of_getElem? hi)
  obtain ⟨x', s', r', hdeal', hm', hs', hr', rfl, rfl, -⟩ :=
    hc.recorded.paired a' b' c' p' (List.mem_of_getElem? hj)
  have one : ∀ {q q' : Party Tid}, x.Between q → x'.Between q' → q.ident = q'.ident → p = p' :=
    fun hq hq' hident => hc.engagements.once p x _ p' x' _ hdeal hdeal' hm hm' hq hq' hident
  have hp : p = p' := by
    rcases hsame with h | h | h | h | h
    · exact one (Lib.Deal.between_of_giver hs) (Lib.Deal.between_of_giver hs') h
    · exact one (Lib.Deal.between_of_taker hr) (Lib.Deal.between_of_taker hr') h
    · exact one (Lib.Deal.between_of_giver hs) (Lib.Deal.between_of_taker hr') h
    · exact one (Lib.Deal.between_of_taker hr) (Lib.Deal.between_of_giver hs') h
    · exact h
  subst hp
  exact eq_of_countP_le_one (hc.marks_le p .met) hi hj (by simp [Event.marks]) (by simp [Event.marks])

theorem stack (hc : Chronicle kind w D h) {v : Packet T} (hoffer : .offer o p v ∈ h)
    (hon : v.onStack = true) {i : Nat} (hover : h[i]? = some (.over o out)) :
    (∀ (j : Nat) e a, i < j → h[j]? = some e → e.touch ≠ some (a, p)) ∧
      ∀ a b c, .pair a b c p ∈ h → ∃ (j : Nat) (q : Ident Tid), j < i ∧
        h[j]? = some (.setReady q p) ∧ (q = a ∨ q = b) ∧ q ≠ o := by
  obtain ⟨x, hdeal, rfl, hkept⟩ := hc.recorded.offered o p v hoffer
  rw [hon] at hkept
  have silent : ∀ (j : Nat) e a, i < j → h[j]? = some e → e.touch ≠ some (a, p) :=
    fun j e a hij hj htouch => (hc.untouched hij hover hj htouch).2 x out hdeal hkept rfl
  refine ⟨silent, fun a b c hpair => ?_⟩
  obtain ⟨x', s, r, hdeal', hm, hs, hr, rfl, rfl, -⟩ := hc.recorded.paired a b c p hpair
  obtain rfl := Option.some.inj (hdeal.symm.trans hdeal')
  have hstill := hc.attested.not_running (List.mem_of_getElem? hover)
  have hquit := (hc.engagements.plays p x x.owner hdeal hm (.inl rfl)).running_or.resolve_left hstill
  have hst := hquit.over_of_kept hkept
  obtain ⟨e, he, hmark⟩ := hc.mem_of_has (k := .shown) hdeal
    (by simp [Lib.Deal.has, hst, Option.isSome_iff_ne_none.mpr hm])
  obtain ⟨c', rfl⟩ := Event.of_shown hmark
  obtain ⟨j, hj⟩ := List.mem_iff_getElem?.mp he
  have hlt : j < i := by
    rcases Nat.lt_trichotomy j i with hlt | rfl | hgt
    · exact hlt
    · cases hj.symm.trans hover
    · exact absurd rfl (silent j _ c' hgt hj)
  refine ⟨j, c', hlt, hj, ?_⟩
  obtain ⟨x'', q, hdeal'', -, hq, rfl⟩ := hc.recorded.shown c' p he
  obtain rfl := Option.some.inj (hdeal.symm.trans hdeal'')
  -- Who sets `ready` on somebody's stack is the partner.
  have hpartner : x.partner = some q ∧ (q = s ∨ q = r) := by
    cases hg : x.gives <;>
      simp only [Lib.Deal.giver, Lib.Deal.taker, Lib.Deal.prefilled, hg, hkept, Bool.and_self,
        Bool.and_true, if_true, Bool.false_eq_true, if_false] at hq hs hr
    · exact ⟨hq, .inl (Option.some.inj (hq.symm.trans hs))⟩
    · exact ⟨hq, .inr (Option.some.inj (hq.symm.trans hr))⟩
  refine ⟨hpartner.2.imp (congrArg Party.ident) (congrArg Party.ident), fun hno => ?_⟩
  exact (hc.engagements.partner p x q hdeal hpartner.1).1 (congrArg Ident.thread hno)

theorem heap (hc : Chronicle kind w D h) (hs : Sound kind w) {v : Packet T} (hoffer : .offer o p v ∈ h)
    (hon : v.onStack = false) : h.countP (Event.marks p .freed) = 1 ∨
      h.countP (Event.marks p .freed) = 0 ∧ ∃ a, w.Running a ∧ (a = o ∨ ∃ s c, .pair s a c p ∈ h) := by
  obtain ⟨x, hdeal, rfl, hkept⟩ := hc.recorded.offered o p v hoffer
  rw [hon] at hkept
  have hcount : h.countP (Event.marks p .freed) = (x.has .freed).toNat := by
    rw [hc.recorded.marks, hdeal, Option.elim_some]
  by_cases hst : x.stage = .over
  · left
    simp [hcount, Lib.Deal.has, hkept, hst]
  · refine .inr ⟨by simp [hcount, Lib.Deal.has, hst], ?_⟩
    by_cases hm : x.partner = none
    · refine ⟨x.owner.ident, ?_, .inl rfl⟩
      cases hc.engagements.loose p x hdeal hm with
      | closed hover => exact absurd hover hst
      | left _ hno _ =>
        rw [hkept] at hno
        cases hno
      | recalled hop _ hf =>
        refine ⟨hop.symm, ?_⟩
        unfold Frame.recalls at hf
        split at hf <;> cases hf <;> rename_i hfr <;> exact hfr ▸ rfl
      | offered hop _ he =>
        refine ⟨hop.symm, ?_⟩
        have hin := inside_of_listed hs he
        cases hf : (w.thread x.owner.thread).frame.ended with
        | false => exact hf
        | true =>
          change (stakes kind w x.owner.thread).inside = true at hin
          rw [stakes, Frame.over_calm hf] at hin
          cases hin
    · obtain ⟨s, r, -, hr, hpair⟩ := hc.pair_of_made hdeal hm
      refine ⟨r.ident, ?_, .inr ⟨s.ident, _, hpair⟩⟩
      have hplays := hc.engagements.plays p x r hdeal hm (Lib.Deal.between_of_taker hr)
      exact hplays.running_or.resolve_right fun hquit => hst (hquit.2 hr)

theorem freed (hc : Chronicle kind w D h) {i : Nat} (hi : h[i]? = some (.free a p)) :
    (∀ (j : Nat) e b, i < j → h[j]? = some e → e.touch ≠ some (b, p)) ∧
      ∃ o v, .offer o p v ∈ h ∧ v.onStack = false ∧
        ((a = o ∧ ∀ s b c, .pair s b c p ∉ h) ∨ ∃ s c, .pair s a c p ∈ h) := by
  refine ⟨fun j e b hij hj htouch => (hc.untouched hij hi hj htouch).1 a rfl, ?_⟩
  obtain ⟨x, hdeal, hkept, hwho⟩ := hc.recorded.freed a p (List.mem_of_getElem? hi)
  obtain ⟨v, hoffer⟩ := hc.recorded.begun p x hdeal
  obtain ⟨x', hdeal', -, hv⟩ := hc.recorded.offered _ p v hoffer
  obtain rfl := Option.some.inj (hdeal.symm.trans hdeal')
  refine ⟨x.owner.ident, v, hoffer, hv.symm.trans hkept, ?_⟩
  rcases hwho with ⟨hm, rfl⟩ | ⟨hm, q, hq, rfl⟩
  · refine .inl ⟨rfl, fun s b c hpair => ?_⟩
    obtain ⟨x', _, _, hdeal', hm', -⟩ := hc.recorded.paired s b c p hpair
    obtain rfl := Option.some.inj (hdeal.symm.trans hdeal')
    exact hm' hm
  · obtain ⟨s, r, -, hr, hpair⟩ := hc.pair_of_made hdeal hm
    obtain rfl := Option.some.inj (hq.symm.trans hr)
    exact .inr ⟨s.ident, _, hpair⟩

theorem rendezvous (hc : Chronicle kind w D h) (hs : Sound kind w) : Rendezvous kind w h where
  once := fun _ _ _ _ _ _ _ _ _ _ hi hj hsame => hc.once hi hj hsame
  apart := fun _ _ _ _ he => hc.apart he
  sides := fun _ _ _ _ he => hc.sides he
  sent := fun _ _ _ _ hz hask hover => hc.sent hz hask hover
  received := fun _ _ _ hz hask hover => hc.received hz hask hover
  filled := fun p => hc.marks_le p .filled
  emptied := fun p => hc.marks_le p .emptied
  stack := fun _ _ _ hoffer hon _ _ hover => hc.stack hoffer hon hover
  heap := fun _ _ _ hoffer hon => hc.heap hs hoffer hon
  freed := fun _ _ _ hi => hc.freed hi

end Chronicle

variable [DecidableEq Tid]

/-- **In every run the sends and receives of the zero channels correspond one to one**, and each
    receive returns the message of its partner. -/
theorem rendezvous_one_to_one {x : World Tid T × List (List (Event Tid T))}
    (hr : (history kind).Reachable x) : Rendezvous kind x.1 x.2.flatten := by
  obtain ⟨D, hc⟩ := chronicle_of_reachable hr
  exact hc.rendezvous (sound_of_reachable hr.forget)

/-- Thread 0 sends 7, and thread 1 receives it from the stack of thread 0. -/
def handover : List (Label Nat Nat) :=
  [.start 0 (.plain ⟨0, some 7⟩ (.blocking none)), .run 0 false [],
    .start 1 (.plain ⟨0, none⟩ (.blocking none)), .run 1 false [], .run 1 false [], .run 1 false [],
    .run 1 false [], .run 0 false [], .run 0 false []]

/-- Then thread 2 comes to receive in a select. It offers a packet on the heap for the short pause, frees it,
    and offers another one to wait with; thread 3 fills that with 8. -/
def heapHandover : List (Label Nat Nat) :=
  let handles : List Handle := [⟨0, .recv, 0, 0⟩]
  .start 2 (.select handles .never) :: List.replicate 9 (.run 2 false handles) ++
    .start 3 (.plain ⟨0, some 8⟩ .nonblocking) :: List.replicate 3 (.run 3 false []) ++
      List.replicate 3 (.run 2 false handles) ++ .complete 2 none :: List.replicate 4 (.run 2 false [])

theorem rendezvous_one_to_one_handover : ∃ x : World Nat Nat × List (List (Event Nat Nat)),
    (history fun _ => .zero).Reachable x ∧ Rendezvous (fun _ => .zero) x.1 x.2.flatten ∧
      x.2.flatten[3]? = some (.pair ⟨0, 1⟩ ⟨1, 1⟩ 0 0) ∧
      x.2.flatten[7]? = some (.over ⟨1, 1⟩ (.ok (some 7))) ∧
      x.2.flatten[9]? = some (.over ⟨0, 1⟩ (.ok none)) ∧
      x.2.flatten[15]? = some (.pair ⟨3, 1⟩ ⟨2, 1⟩ 0 2) ∧
      x.2.flatten[23]? = some (.free ⟨2, 1⟩ 2) ∧
      x.2.flatten[24]? = some (.over ⟨2, 1⟩ (.ok (some 8))) := by
  have hsome : (recount (fun _ => .zero) (handover ++ heapHandover)).isSome := by decide +kernel
  obtain ⟨x, hx⟩ := Option.isSome_iff_exists.mp hsome
  have hr := reachable_of_recount hx
  refine ⟨x, hr, rendezvous_one_to_one hr, ?_⟩
  obtain rfl : _ = x := Option.some.inj hx
  exact ⟨rfl, rfl, rfl, rfl, rfl, rfl⟩

end World

end CrossbeamChannel
