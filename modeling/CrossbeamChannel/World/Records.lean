import CrossbeamChannel.World.Assertions
import CrossbeamChannel.World.History

/-!
# What the history tells

Every mark on a packet is left by a move in its deal, so it is left once: `Ledger.Recorded`. What
an operation has been asked for, and how it has ended, is in the history as well: `World.Attested`.

The two are proved side by side with the ledger and need nothing but the step itself. They turn the ghost
into something a reader of the history can check, and are the only way from a deal to an event.
-/

namespace CrossbeamChannel

variable {Tid T : Type}

/-- **The history tells what has become of the deals.** -/
structure Ledger.Recorded (D : Ledger Tid T) (h : List (Event Tid T)) : Prop where
  marks : ∀ p k, h.countP (Event.marks p k) = (D p).elim 0 fun x => (x.has k).toNat
  offered : ∀ a p v, .offer a p v ∈ h → ∃ x, D p = some x ∧ x.owner.ident = a ∧ x.kept = v.onStack
  begun : ∀ p x, D p = some x → ∃ v, .offer x.owner.ident p v ∈ h
  paired : ∀ a b c p, .pair a b c p ∈ h → ∃ x q r, D p = some x ∧ x.partner ≠ none ∧
    x.giver = some q ∧ x.taker = some r ∧ q.ident = a ∧ r.ident = b ∧ x.owner.place.chan = c
  shown : ∀ a p, .setReady a p ∈ h → ∃ x q, D p = some x ∧ x.partner ≠ none ∧
    (if x.prefilled then x.taker else x.giver) = some q ∧ q.ident = a
  freed : ∀ a p, .free a p ∈ h → ∃ x, D p = some x ∧ x.kept = false ∧
    ((x.partner = none ∧ x.owner.ident = a) ∨
      x.partner ≠ none ∧ ∃ q, x.taker = some q ∧ q.ident = a)

namespace Ledger.Recorded

variable {D : Ledger Tid T} {h : List (Event Tid T)} {p : Nat} {x : Lib.Deal (Party Tid) T}
  {a : Ident Tid} {k : Lib.Deal.Mark}

/-- What has left its mark has been done. -/
theorem has_of_mem (hr : D.Recorded h) (hdeal : D p = some x) {e : Event Tid T} (he : e ∈ h)
    (hk : e.marks p k = true) : x.has k = true := by
  have hpos : 0 < h.countP (Event.marks p k) := List.countP_pos_iff.mpr ⟨e, he, hk⟩
  rw [hr.marks, hdeal, Option.elim_some] at hpos
  cases hx : x.has k with
  | true => rfl
  | false =>
    rw [hx] at hpos
    cases hpos

theorem over_of_freed (hr : D.Recorded h) (hdeal : D p = some x) (he : .free a p ∈ h) :
    x.stage = .over := by
  have hfreed := hr.has_of_mem (k := .freed) hdeal he (by simp [Event.marks])
  simp only [Lib.Deal.has, Bool.and_eq_true, decide_eq_true_eq] at hfreed
  exact hfreed.2

end Ledger.Recorded

namespace Frame

/-- The body is that of what the thread has been asked for. A select is asked for nothing before an
    operation has been selected. -/
def Serves : Frame Tid T → Option (Job T) → Prop
  | .plain job _ _, asked | .zero job _ _, asked | .finish job _, asked => asked = some job
  | .timer c _, asked => asked.map Job.chan = some c
  | .select _ _ _, asked | .chosen _ _, asked | .close _ _ _, asked => asked = none
  | .done _, _ | .panicked, _ => True

variable {kind : Nat → Kind T} {f g : Frame Tid T} {asked : Option (Job T)}

theorem Stays.serves (h : Stays f g) (hf : f.Serves asked) : g.Serves asked := by
  cases h <;> first | exact hf | trivial

theorem finishWith_serves (kind : Nat → Kind T) (job : Job T) (tk : Token) :
    (finishWith kind job tk : Frame Tid T).Serves (some job) := by
  unfold finishWith
  repeat' split
  all_goals trivial

theorem opFrame_serves (op : Op T) : (op.frame kind : Frame Tid T).Serves op.job := by
  unfold Op.frame nowStart loopStart
  repeat' split
  all_goals trivial

end Frame

variable [DecidableEq Tid]

namespace World

variable {kind : Nat → Kind T} {w w' : World Tid T} {t : Tid} {act : Act Tid T} {th : Thread Tid T}
  {count : Nat → Side → Nat} {D D' : Ledger Tid T} {g : Frame Tid T} {h es : List (Event Tid T)}

/-- What becomes of a deal. -/
theorem Noted.goes (hn : Noted kind w t act g D D' es) (hnew : D w.shared.fresh = none) {p : Nat}
    {x : Lib.Deal (Party Tid) T} (hdeal : D p = some x) :
    ∃ y, D' p = some y ∧ (y = x ∨ ∃ mv, x.next mv = some y) := by
  have moved : ∀ {r z mv} {x' : Lib.Deal (Party Tid) T}, D r = some x' → x'.next mv = some z →
      ∃ y, (D.put r z) p = some y ∧ (y = x ∨ ∃ mv, x.next mv = some y) := by
    intro r z mv x' hr hz
    by_cases hp : p = r
    · subst hp
      obtain rfl := Option.some.inj (hdeal.symm.trans hr)
      exact ⟨z, Ledger.put_self, .inr ⟨mv, hz⟩⟩
    · exact ⟨x, (Ledger.put_of_ne hp).trans hdeal, .inl rfl⟩
  cases hn with
  | idle _ => exact ⟨x, hdeal, .inl rfl⟩
  | enter _ => exact ⟨x, Ledger.extends_put hnew p x hdeal, .inl rfl⟩
  | meet hm _ _ _ => exact moved hm.deal hm.next
  | withdraw hr hz => exact moved hr hz
  | touch hr hz _ _ _ _ _ => exact moved hr hz

/-- What stays as it is of a deal. -/
theorem Noted.keeps (hn : Noted kind w t act g D D' es) (hnew : D w.shared.fresh = none) {p : Nat}
    {x : Lib.Deal (Party Tid) T} (hdeal : D p = some x) (hsane : x.Sane) :
    ∃ y, D' p = some y ∧ y.owner = x.owner ∧ y.kept = x.kept ∧ y.gives = x.gives ∧
      (x.partner ≠ none ∨ x.stage = .over → y.partner = x.partner) := by
  obtain ⟨y, hy, rfl | ⟨mv, hn⟩⟩ := hn.goes hnew hdeal
  · exact ⟨y, hy, rfl, rfl, rfl, fun _ => rfl⟩
  · obtain ⟨howner, hgives, hkept⟩ := Lib.Deal.next_static hn
    refine ⟨y, hy, howner, hkept, hgives, fun hm => ?_⟩
    rcases hm with hm | hst
    · exact hsane.next_partner hm hn
    · rw [Lib.Deal.next_over hst] at hn
      cases hn

omit [DecidableEq Tid] in
/-- A deal that is put down anew, with what is written down of it. -/
theorem marks_put (hr : D.Recorded h) {p : Nat} {y : Lib.Deal (Party Tid) T}
    (hothers : ∀ q k, q ≠ p → es.countP (Event.marks q k) = 0)
    (hself : ∀ k, (y.has k).toNat = h.countP (Event.marks p k) + es.countP (Event.marks p k))
    (q : Nat) (k : Lib.Deal.Mark) : (h ++ es).countP (Event.marks q k) =
      ((D.put p y) q).elim 0 fun x => (x.has k).toNat := by
  rw [List.countP_append]
  by_cases hq : q = p
  · subst hq
    rw [Ledger.put_self, Option.elim_some, hself]
  · rw [Ledger.put_of_ne hq, hothers q k hq, ← hr.marks, Nat.add_zero]

omit [DecidableEq Tid] in
/-- What is written down of one move. -/
theorem marks_move (hr : D.Recorded h) {p : Nat} {x y : Lib.Deal (Party Tid) T}
    {mv : Lib.Deal.Move (Party Tid) T} (hdeal : D p = some x) (hsane : x.Sane)
    (hnext : x.next mv = some y)
    (hes : ∀ q k, es.countP (Event.marks q k) = if p = q ∧ mv.mark = some k then 1 else 0)
    (q : Nat) (k : Lib.Deal.Mark) : (h ++ es).countP (Event.marks q k) =
      ((D.put p y) q).elim 0 fun x => (x.has k).toNat := by
  refine marks_put hr (fun q k hq => ?_) (fun k => ?_) q k
  · rw [hes, if_neg fun hp => hq hp.1.symm]
  · rw [Lib.Deal.has_next hsane hnext, hr.marks, hdeal, hes]
    simp only [Option.elim_some, true_and]

theorem Noted.marks (hn : Noted kind w t act g D D' es) (hr : D.Recorded h)
    (hnew : D w.shared.fresh = none) (hsane : ∀ p x, D p = some x → x.Sane) (q : Nat)
    (k : Lib.Deal.Mark) : (h ++ es).countP (Event.marks q k) =
      (D' q).elim 0 fun x => (x.has k).toNat := by
  cases hn with
  | idle hes =>
    have hnone : es.countP (Event.marks q k) = 0 := by
      refine List.countP_eq_zero.mpr fun e he => ?_
      cases hes e he <;> simp [Event.marks]
    rw [List.countP_append, hnone, Nat.add_zero, hr.marks]
  | enter hstack =>
    rename_i pl v
    refine marks_put hr (fun q k hq => ?_) (fun k => ?_) q k
    · simp [Event.marks, Ne.symm hq]
    · rw [hr.marks, hnew, List.countP_singleton]
      cases k <;> cases hv : v.msg <;> simp [Lib.Deal.has, Event.marks, Accounts.offered, hv]
  | meet hm hc ha hb =>
    refine marks_move hr hm.deal (hsane _ _ hm.deal) hm.next (fun q k => ?_) q k
    rw [List.countP_singleton]
    simp only [Event.marks, Lib.Deal.Move.mark, Bool.and_eq_true, decide_eq_true_eq, Option.some.injEq]
    exact if_congr (and_congr_right fun _ => eq_comm) rfl rfl
  | withdraw hdeal hnext =>
    exact marks_move hr hdeal (hsane _ _ hdeal) hnext (by simp [Lib.Deal.Move.mark]) q k
  | touch hdeal hnext hmv htouch hmarks hactor hstore =>
    refine marks_move hr hdeal (hsane _ _ hdeal) hnext (fun q k => ?_) q k
    rw [List.countP_singleton]
    exact if_congr (hmarks q k) rfl rfl

/-- The two of a made deal are the two of the deal it becomes. -/
theorem Noted.parties (hn : Noted kind w t act g D D' es) (hnew : D w.shared.fresh = none) {p : Nat}
    {x : Lib.Deal (Party Tid) T} (hdeal : D p = some x) (hsane : x.Sane) (hm : x.partner ≠ none) :
    ∃ y, D' p = some y ∧ y.partner ≠ none ∧ y.giver = x.giver ∧ y.taker = x.taker ∧
      y.prefilled = x.prefilled ∧ y.kept = x.kept ∧ y.owner = x.owner := by
  obtain ⟨y, hy, howner, hkept, hgives, hpartner⟩ := hn.keeps hnew hdeal hsane
  have hpartner := hpartner (.inl hm)
  refine ⟨y, hy, by rwa [hpartner], ?_, ?_, ?_, hkept, howner⟩
  · rw [Lib.Deal.giver, Lib.Deal.giver, hgives, howner, hpartner]
  · rw [Lib.Deal.taker, Lib.Deal.taker, hgives, howner, hpartner]
  · rw [Lib.Deal.prefilled, Lib.Deal.prefilled, hgives, hkept]

/-- What is written down, and which move it is. -/
theorem Noted.mem (hn : Noted kind w t act g D D' es) {e : Event Tid T} (he : e ∈ es) :
    w.Aside t e ∨
    (∃ pl v, e = .offer (w.ident t) w.shared.fresh v ∧
      D' w.shared.fresh = some (Accounts.offered w t pl v)) ∨
    (∃ p y a b, e = .pair a.ident b.ident y.owner.place.chan p ∧ D' p = some y ∧ y.partner ≠ none ∧
      y.giver = some a ∧ y.taker = some b) ∨
    ∃ p x y mv, e.touch = some (w.ident t, p) ∧ D p = some x ∧ x.next mv = some y ∧ D' p = some y ∧
      (∀ q, mv ≠ .meet q) ∧ (∀ k, e.marks p k = true ↔ mv.mark = some k) ∧
      ∃ a, x.actor mv = some a ∧ a.ident = w.ident t := by
  cases hn with
  | idle hes =>
    exact .inl (hes e he)
  | enter hstack =>
    obtain rfl := List.mem_singleton.mp he
    exact .inr (.inl ⟨_, _, rfl, Ledger.put_self⟩)
  | meet hm hc hgiver htaker =>
    obtain rfl := List.mem_singleton.mp he
    exact .inr (.inr (.inl ⟨_, _, _, _, by rw [hc], Ledger.put_self, by rw [hm.parties.2]; simp, hgiver, htaker⟩))
  | withdraw _ _ => cases he
  | touch hdeal hnext hmv htouch hmarks hactor hstore =>
    obtain rfl := List.mem_singleton.mp he
    refine .inr (.inr (.inr ⟨_, _, _, _, htouch, hdeal, hnext, Ledger.put_self, hmv, fun k => ?_,
      hactor⟩))
    exact (hmarks _ k).trans (and_iff_right rfl)

/-- A deal there is was there before, or has just begun. -/
theorem Noted.began (hn : Noted kind w t act g D D' es) {p : Nat} {y : Lib.Deal (Party Tid) T}
    (hy : D' p = some y) :
    (∃ x, D p = some x ∧ y.owner = x.owner) ∨ ∃ v, .offer y.owner.ident p v ∈ es := by
  have moved : ∀ {r z mv} {x : Lib.Deal (Party Tid) T}, (D.put r z) p = some y → D r = some x →
      x.next mv = some z → ∃ x, D p = some x ∧ y.owner = x.owner := by
    intro r z mv x hy hr hz
    by_cases hp : p = r
    · subst hp
      rw [Ledger.put_self] at hy
      obtain rfl := Option.some.inj hy
      exact ⟨x, hr, (Lib.Deal.next_static hz).1⟩
    · rw [Ledger.put_of_ne hp] at hy
      exact ⟨y, hy, rfl⟩
  cases hn with
  | idle _ => exact .inl ⟨y, hy, rfl⟩
  | enter _ =>
    by_cases hp : p = w.shared.fresh
    · subst hp
      rw [Ledger.put_self] at hy
      obtain rfl := Option.some.inj hy
      exact .inr ⟨_, List.mem_singleton_self _⟩
    · rw [Ledger.put_of_ne hp] at hy
      exact .inl ⟨y, hy, rfl⟩
  | meet hm _ _ _ => exact .inl (moved hy hm.deal hm.next)
  | withdraw hr hz => exact .inl (moved hy hr hz)
  | touch hr hz _ _ _ _ _ => exact .inl (moved hy hr hz)

/-- **Every step keeps the record of the deals.** -/
theorem Noted.recorded (hn : Noted kind w t act g D D' es) (hr : D.Recorded h)
    (hnew : D w.shared.fresh = none) (hsane : ∀ p x, D p = some x → x.Sane) :
    D'.Recorded (h ++ es) where
  marks := hn.marks hr hnew hsane
  offered := by
    intro a p v hmem
    rcases List.mem_append.mp hmem with hold | hmem
    · obtain ⟨x, hdeal, howner, hkept⟩ := hr.offered a p v hold
      obtain ⟨y, hy, howner', hkept', -⟩ := hn.keeps hnew hdeal (hsane p x hdeal)
      exact ⟨y, hy, by rw [howner', howner], by rw [hkept', hkept]⟩
    -- Each kind of event is written down with one kind of move, so the other cases are void.
    · rcases hn.mem hmem with hno | ⟨pl, v, heq, hdeal⟩ | ⟨q, y, a, b, hno, -⟩ | ⟨q, x, y, mv, hno, -⟩
      · cases hno
      · cases heq
        exact ⟨_, hdeal, rfl, rfl⟩
      · cases hno
      · cases hno
  begun := by
    intro p y hy
    rcases hn.began hy with ⟨x, hdeal, howner⟩ | ⟨v, hmem⟩
    · obtain ⟨v, hmem⟩ := hr.begun p x hdeal
      exact ⟨v, List.mem_append_left _ (by rwa [howner])⟩
    · exact ⟨v, List.mem_append_right _ hmem⟩
  paired := by
    intro a b c p hmem
    rcases List.mem_append.mp hmem with hold | hmem
    · obtain ⟨x, q, r, hdeal, hm, hgiver, htaker, hq, hr', hchan⟩ := hr.paired a b c p hold
      obtain ⟨y, hy, hm', hgiver', htaker', -, -, howner⟩ := hn.parties hnew hdeal (hsane p x hdeal) hm
      exact ⟨y, q, r, hy, hm', hgiver'.trans hgiver, htaker'.trans htaker, hq, hr', by rw [howner, hchan]⟩
    · rcases hn.mem hmem with hno | ⟨pl, v, hno, -⟩ | ⟨q, y, a, b, heq, hy, hm, hgiver, htaker⟩ |
        ⟨q, x, y, mv, hno, -⟩
      · cases hno
      · cases hno
      · cases heq
        exact ⟨y, a, b, hy, hm, hgiver, htaker, rfl, rfl, rfl⟩
      · cases hno
  shown := by
    intro a p hmem
    rcases List.mem_append.mp hmem with hold | hmem
    · obtain ⟨x, q, hdeal, hm, hq, hident⟩ := hr.shown a p hold
      obtain ⟨y, hy, hm', hgiver, htaker, hpre, -⟩ := hn.parties hnew hdeal (hsane p x hdeal) hm
      exact ⟨y, q, hy, hm', by rwa [hpre, hgiver, htaker], hident⟩
    · rcases hn.mem hmem with hno | ⟨pl, v, hno, -⟩ | ⟨q, y, a, b, hno, -⟩ |
        ⟨q, x, y, mv, htouch, hdeal, hnext, hy, hmv', hmarks, r, hactor, hident⟩
      · cases hno
      · cases hno
      · cases hno
      · cases htouch
        obtain rfl := Lib.Deal.mark_shown.mp ((hmarks .shown).mp (by simp [Event.marks]))
        have hs := hsane p x hdeal
        have hm := hs.met_of_live (by simp [Lib.Deal.Live, Lib.Deal.publish_stage hnext])
        obtain ⟨y', hy', hm', hgiver, htaker, hpre, -⟩ := hn.parties hnew hdeal hs hm
        exact ⟨y', r, hy', hm', by rwa [hpre, hgiver, htaker], hident⟩
  freed := by
    intro a p hmem
    rcases List.mem_append.mp hmem with hold | hmem
    · obtain ⟨x, hdeal, hkept, hwho⟩ := hr.freed a p hold
      have hs := hsane p x hdeal
      rcases hwho with ⟨hm, howner⟩ | ⟨hm, q, htaker, hq⟩
      · obtain ⟨y, hy, howner', hkept', -, hpartner⟩ := hn.keeps hnew hdeal hs
        have hover := hr.over_of_freed hdeal hold
        exact ⟨y, hy, by rw [hkept', hkept], .inl ⟨by rw [hpartner (.inr hover), hm], by rw [howner', howner]⟩⟩
      · obtain ⟨y, hy, hm', -, htaker', -, hkept', -⟩ := hn.parties hnew hdeal hs hm
        exact ⟨y, hy, by rw [hkept', hkept], .inr ⟨hm', q, by rw [htaker', htaker], hq⟩⟩
    · rcases hn.mem hmem with hno | ⟨pl, v, hno, -⟩ | ⟨q, y, a, b, hno, -⟩ |
        ⟨q, x, y, mv, htouch, hdeal, hnext, hy, hmv', hmarks, r, hactor, hident⟩
      · cases hno
      · cases hno
      · cases hno
      · cases htouch
        have hs := hsane p x hdeal
        have hmv := Lib.Deal.mark_freed.mp ((hmarks .freed).mp (by simp [Event.marks]))
        obtain ⟨hkept, hwho⟩ := hs.freed hmv hnext hactor
        obtain ⟨y', hy', howner, hkept', -, hpartner⟩ := hn.keeps hnew hdeal hs
        refine ⟨y', hy', by rw [hkept', hkept], ?_⟩
        rcases hwho with ⟨hm, rfl⟩ | ⟨hm, htaker⟩
        · obtain rfl := Option.some.inj (hy.symm.trans hy')
          exact .inl ⟨by rw [Lib.Deal.next_partner hnext hmv', hm], by rw [howner, hident]⟩
        · obtain ⟨y'', hy'', hm', -, htaker', -⟩ := hn.parties hnew hdeal hs hm
          obtain rfl := Option.some.inj (hy'.symm.trans hy'')
          exact .inr ⟨hm', r, by rw [htaker', htaker], hident⟩

end World

/-! ## What the operations are asked for, and how they end -/

namespace World

variable {kind : Nat → Kind T} {w w' : World Tid T} {t : Tid} {act : Act Tid T} {th : Thread Tid T}
  {count : Nat → Side → Nat} {D D' : Ledger Tid T} {g : Frame Tid T} {h es : List (Event Tid T)}

theorem Turn.serves (ht : Turn kind w t act th count) (hw : (w.thread t).frame.Serves (w.thread t).job) :
    th.frame.Serves th.job := by
  cases ht with
  | next hn => exact hn.stays.serves hw
  | start _ _ => exact Frame.opFrame_serves _
  | complete _ _ => exact Frame.finishWith_serves kind _ _
  | drop _ _ _ =>
    unfold lastDropped
    repeat' split
    all_goals trivial

theorem serves_of_reachable (h : (system kind).Reachable w) (t : Tid) :
    (w.thread t).frame.Serves (w.thread t).job := by
  refine h.invariant (P := fun w => ∀ t, (w.thread t).frame.Serves (w.thread t).job)
    ?_ (fun w l w' _ hw hs t => ?_) t
  · rintro _ rfl t
    trivial
  · rcases step_cases hs with ⟨u, act, th, count, ht, ha⟩ | ⟨c, d, -, rfl⟩ | ⟨now, -, rfl⟩
    · by_cases hu : t = u
      · subst hu
        rw [ha.frame, ha.job]
        exact ht.serves (hw t)
      · rw [ha.others hu]
        exact hw t
    · exact hw t
    · exact hw t

omit [DecidableEq Tid] in
theorem mem_asked {e : Event Tid T} :
    e ∈ w.asked t ↔ (∃ job, (w.thread t).job = some job ∧ e = .ask (w.ident t) job) ∨
      ∃ handles timeout st, (w.thread t).job = none ∧
        (w.thread t).frame = .select handles timeout st ∧ e = .among (w.ident t) handles := by
  unfold asked
  cases (w.thread t).job with
  | some job => simp
  | none => cases (w.thread t).frame <;> simp

omit [DecidableEq Tid] in
theorem mem_returned {e : Event Tid T} :
    e ∈ w.returned t ↔ ∃ out, (w.thread t).frame = .done out ∧ e = .over (w.ident t) out := by
  unfold returned
  cases (w.thread t).frame <;> simp

/-- **The history tells what an operation has been asked for**, and how it has ended. -/
structure Attested (w : World Tid T) (h : List (Event Tid T)) : Prop where
  asked : ∀ t j, (w.thread t).job = some j → .ask (w.ident t) j ∈ h
  asks : ∀ a j, .ask a j ∈ h → a.op ≤ (w.thread a.thread).ops ∧
    (a.op = (w.thread a.thread).ops → (w.thread a.thread).job = some j)
  overs : ∀ a out, .over a out ∈ h → a.op ≤ (w.thread a.thread).ops ∧
    (a.op = (w.thread a.thread).ops → (w.thread a.thread).frame = .done out)
  once : ∀ a j j', .ask a j ∈ h → .ask a j' ∈ h → j = j'
  last : ∀ a out out', .over a out ∈ h → .over a out' ∈ h → out = out'

omit [DecidableEq Tid] in
/-- What is written down in a turn of thread `t`, of the operations themselves. -/
structure Tells (w w' : World Tid T) (t : Tid) (es : List (Event Tid T)) : Prop where
  asks : ∀ a j, .ask a j ∈ es → a = w'.ident t ∧ (w'.thread t).job = some j
  overs : ∀ a out, .over a out ∈ es ↔ a = w'.ident t ∧ (w'.thread t).frame = .done out
  asked : ∀ j, (w'.thread t).job = some j → .ask (w'.ident t) j ∈ es ∨
    (w'.thread t).ops = (w.thread t).ops ∧ (w'.thread t).job = (w.thread t).job
  picks : ∀ a handles, .among a handles ∈ es → a = w'.ident t ∧ (w.thread t).frame.call = .none ∧
    ∃ timeout st, (w'.thread t).frame = .select handles timeout st
  picked : ∀ handles timeout st, (w'.thread t).frame = .select handles timeout st →
    (w'.thread t).job = none → (w.thread t).frame.call = .none → .among (w'.ident t) handles ∈ es

theorem Noted.untold (hn : Noted kind w t act g D D' es) {e : Event Tid T} (he : e ∈ es) : ¬ e.Said := by
  rintro (_ | _ | _) <;>
  · rcases hn.mem he with hno | ⟨pl, v, hno, -⟩ | ⟨p, y, a, b, hno, -⟩ | ⟨p, x, y, mv, hno, -⟩ <;>
      cases hno

theorem Noted.tells (hn : Noted kind w t act g D D' es) (ha : After w w' t act th count)
    (hops : th.ops = (w.thread t).ops) (hjob : th.job = (w.thread t).job)
    (hcall : (w.thread t).frame.call ≠ .none) : Tells w w' t (es ++ w'.returned t) := by
  refine ⟨fun a j he => ?_, fun a out => ?_, fun j _ => .inr ⟨ha.ops.trans hops, ha.job.trans hjob⟩,
    fun a handles he => ?_, fun _ _ _ _ _ hno => absurd hno hcall⟩
  · rcases List.mem_append.mp he with he | he
    · exact absurd (.asks a j) (hn.untold he)
    · obtain ⟨out, -, hno⟩ := mem_returned.mp he
      cases hno
  · rw [List.mem_append, or_iff_right fun he => hn.untold he (.ends a out), mem_returned]
    constructor
    · rintro ⟨out', hf, heq⟩
      cases heq
      exact ⟨rfl, hf⟩
    · rintro ⟨rfl, hf⟩
      exact ⟨out, hf, rfl⟩
  · rcases List.mem_append.mp he with he | he
    · exact absurd (.picks a handles) (hn.untold he)
    · obtain ⟨out, -, hno⟩ := mem_returned.mp he
      cases hno

omit [DecidableEq Tid] in
theorem tells_asked (hcall : (w.thread t).frame.call = .none) :
    Tells w w' t (w'.asked t ++ w'.returned t) := by
  refine ⟨fun a j he => ?_, fun a out => ?_, fun j hj => .inl ?_, fun a handles he => ?_,
    fun handles timeout st hf hjob _ => ?_⟩
  · rcases List.mem_append.mp he with he | he
    · rcases mem_asked.mp he with ⟨j', hj, heq⟩ | ⟨handles, timeout, st, -, -, hno⟩
      · cases heq
        exact ⟨rfl, hj⟩
      · cases hno
    · obtain ⟨out, -, hno⟩ := mem_returned.mp he
      cases hno
  · rw [List.mem_append, mem_asked, mem_returned]
    constructor
    · rintro ((⟨j, -, hno⟩ | ⟨handles, timeout, st, -, -, hno⟩) | ⟨out', hf, heq⟩)
      · cases hno
      · cases hno
      · cases heq
        exact ⟨rfl, hf⟩
    · rintro ⟨rfl, hf⟩
      exact .inr ⟨out, hf, rfl⟩
  · exact List.mem_append_left _ (mem_asked.mpr (.inl ⟨j, hj, rfl⟩))
  · rcases List.mem_append.mp he with he | he
    · rcases mem_asked.mp he with ⟨j, -, hno⟩ | ⟨handles', timeout, st, -, hf, heq⟩
      · cases hno
      · cases heq
        exact ⟨rfl, hcall, timeout, st, hf⟩
    · obtain ⟨out, -, hno⟩ := mem_returned.mp he
      cases hno
  · exact List.mem_append_left _ (mem_asked.mpr (.inr ⟨handles, timeout, st, hjob, hf, rfl⟩))

theorem Attested.asks_after (hw : Attested w h) (ht : Turn kind w t act th count)
    (ha : After w w' t act th count) (hun : (w.thread t).frame.Serves (w.thread t).job)
    (he : Tells w w' t es) (a : Ident Tid) (j : Job T) (hmem : .ask a j ∈ h ++ es) :
    a.op ≤ (w'.thread a.thread).ops ∧
      (a.op = (w'.thread a.thread).ops → (w'.thread a.thread).job = some j) := by
  rcases List.mem_append.mp hmem with hold | hnew
  · obtain ⟨hle, hnow⟩ := hw.asks a j hold
    refine ⟨Nat.le_trans hle (ha.ops_le ht _), fun hop => ?_⟩
    by_cases hu : a.thread = t
    · rw [hu] at hle hop hnow ⊢
      rw [ha.ops] at hop
      rw [ha.job]
      cases ht with
      | next hn => exact hnow hop
      | start _ _ | drop _ _ _ => exact absurd (hop ▸ hle) (Nat.not_succ_le_self _)
      | complete hf _ =>
        rw [hf, hnow hop] at hun
        cases hun
    · rw [ha.others hu] at hop ⊢
      exact hnow hop
  · obtain ⟨rfl, hj⟩ := he.asks a j hnew
    exact ⟨Nat.le_refl _, fun _ => hj⟩

theorem Attested.overs_after (hw : Attested w h) (ht : Turn kind w t act th count)
    (ha : After w w' t act th count) (he : Tells w w' t es) (a : Ident Tid) (out : Outcome T)
    (hmem : .over a out ∈ h ++ es) : a.op ≤ (w'.thread a.thread).ops ∧
      (a.op = (w'.thread a.thread).ops → (w'.thread a.thread).frame = .done out) := by
  rcases List.mem_append.mp hmem with hold | hnew
  · obtain ⟨hle, hnow⟩ := hw.overs a out hold
    refine ⟨Nat.le_trans hle (ha.ops_le ht _), fun hop => ?_⟩
    by_cases hu : a.thread = t
    · rw [hu] at hle hop hnow ⊢
      rw [ha.ops] at hop
      rw [ha.frame]
      cases ht with
      | next hn => exact absurd hn (not_next_of_ended (by rw [hnow hop]; rfl))
      | start _ _ | drop _ _ _ => exact absurd (hop ▸ hle) (Nat.not_succ_le_self _)
      | complete hf _ =>
        rw [hnow hop] at hf
        cases hf
    · rw [ha.others hu] at hop ⊢
      exact hnow hop
  · obtain ⟨rfl, hf⟩ := (he.overs a out).mp hnew
    exact ⟨Nat.le_refl _, fun _ => hf⟩

theorem Attested.after (hw : Attested w h) (ht : Turn kind w t act th count)
    (ha : After w w' t act th count) (hun : (w.thread t).frame.Serves (w.thread t).job)
    (he : Tells w w' t es) : Attested w' (h ++ es) where
  overs := hw.overs_after ht ha he
  last := by
    intro a out out' ho ho'
    have new : ∀ {o}, .over a o ∈ es → out = out' := by
      intro o hnew
      obtain ⟨rfl, -⟩ := (he.overs a o).mp hnew
      have hf := (hw.overs_after ht ha he _ out ho).2 rfl
      exact Frame.done.inj (hf.symm.trans ((hw.overs_after ht ha he _ out' ho').2 rfl))
    rcases List.mem_append.mp ho with hold | hnew
    · rcases List.mem_append.mp ho' with hold' | hnew'
      · exact hw.last a out out' hold hold'
      · exact new hnew'
    · exact new hnew
  asked := by
    intro u j hj
    by_cases hu : u = t
    · subst hu
      rcases he.asked j hj with hmem | ⟨hops, hjob⟩
      · exact List.mem_append_right _ hmem
      · rw [ident, hops]
        exact List.mem_append_left _ (hw.asked u j (hjob.symm.trans hj))
    · rw [ha.others hu] at hj
      rw [ident, ha.others hu]
      exact List.mem_append_left _ (hw.asked u j hj)
  asks := hw.asks_after ht ha hun he
  once := by
    intro a j j' hj hj'
    have new : ∀ {k}, .ask a k ∈ es → j = j' := by
      intro k hk
      obtain ⟨rfl, -⟩ := he.asks a k hk
      have hjob := (hw.asks_after ht ha hun he _ j hj).2 rfl
      exact Option.some.inj (hjob.symm.trans ((hw.asks_after ht ha hun he _ j' hj').2 rfl))
    rcases List.mem_append.mp hj with hold | hnew
    · rcases List.mem_append.mp hj' with hold' | hnew'
      · exact hw.once a j j' hold hold'
      · exact new hnew'
    · exact new hnew

/-- Who is running goes on, or returns. -/
theorem Running.after {a : Ident Tid} (hr : w.Running a) (ht : Turn kind w t act th count)
    (ha : After w w' t act th count) (hsafe : (w'.thread t).frame ≠ .panicked)
    (he : Tells w w' t es) : w'.Running a ∨ ∃ out, .over a out ∈ es := by
  obtain ⟨hop, hrun⟩ := hr
  by_cases hu : a.thread = t
  · have hops : (w'.thread a.thread).ops = a.op := by
      rw [hu] at hop hrun ⊢
      rw [ha.ops, ← hop]
      cases ht with
      | next _ | complete _ _ => rfl
      | start hover _ | drop hover _ _ =>
        rw [hover] at hrun
        cases hrun
    cases hf : (w'.thread a.thread).frame with
    | done out =>
      refine .inr ⟨out, (he.overs a out).mpr ⟨?_, by rw [← hu, hf]⟩⟩
      rw [ident, ← hu, hops]
    | panicked => exact absurd (hu ▸ hf) hsafe
    | _ => exact .inl ⟨hops, by rw [hf]; rfl⟩
  · exact .inl ⟨by rw [ha.others hu, hop], by rw [ha.others hu, hrun]⟩

omit [DecidableEq Tid] in
/-- Who has returned does not run. -/
theorem Attested.not_running (hw : Attested w h) {a : Ident Tid} {out : Outcome T}
    (hover : .over a out ∈ h) : ¬ w.Running a := by
  rintro ⟨hop, hrun⟩
  rw [(hw.overs a out hover).2 hop.symm] at hrun
  cases hrun

end World

end CrossbeamChannel
