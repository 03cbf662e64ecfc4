import CrossbeamChannel.World.Accesses
import CrossbeamChannel.World.Deals

/-!
# The rendezvous of the zero flavor

Every step of the machine keeps the ledger of the packets in order, or makes one of the moves of
`Lib.Deal` in it, one that is the thread's to make: `World.Accounts.step`. So in every run each
packet goes through one handover, between the operation that offered it and the one that came.

`Accounts` ties the ledger to what is there: to the memory (`Shows`), the queues, the contexts and
the places of the bodies (`grip`). The clauses about queues and contexts are needed for the moment at
which two operations meet. `wake_one` hands over the address from the entry, and the owner learns of it
from its context only; the ledger has to know that these are the same packet.
-/

namespace CrossbeamChannel

variable {Tid T : Type} [DecidableEq Tid]

namespace Shared

variable {w : Shared Tid T} {t : Tid} {act : Act Tid T}

/-- No step of its own selects the operation of a thread. -/
theorem cx_self {op : Operation Tid} (h : ((w.apply t act).reg.cx t).select = .operation op) :
    (w.apply t act).reg.cx t = w.reg.cx t := by
  have swept : ∀ (r : Registry Tid) c d, ((r.disconnect c d).cx t).select = .operation op →
      (r.disconnect c d).cx t = r.cx t := by
    intro r c d
    simp only [Registry.disconnect, Waker.disconnect_apply]
    split
    · by_cases hw : (r.cx t).select = .waiting
      · rw [Context.trySelect_waiting hw]
        simp
      · rw [Context.trySelect_decided hw]
        exact fun _ => rfl
    · exact fun _ => rfl
  cases act with
  | reset | queue _ _ _ =>
    simp only [apply, Registry.reset, Registry.register, Registry.setWaker_cx,
      Function.update_self] at h
    cases h
  | abort =>
    simp only [apply, Registry.abort, Function.update_self] at h ⊢
    by_cases hw : (w.reg.cx t).select = .waiting
    · rw [Context.trySelect_waiting hw] at h
      cases h
    · rw [Context.trySelect_decided hw]
  | disconnect c d => exact swept _ _ _ h
  | disconnectZero c =>
    have h₁ := swept _ _ _ h
    refine h₁.trans (swept _ _ _ ?_)
    rw [← h₁]
    exact h
  | wakeOne c d =>
    simp only [apply, Registry.wakeOne]
    cases he : ((w.reg.waker c d).wakeOne w.reg.cx t).1 with
    | none => rfl
    | some e => exact Waker.wakeContext_of_ne (Ne.symm (Waker.wakeOne_some he).2.1)
  | _ => rfl

end Shared

namespace Frame

variable {kind : Nat → Kind T} {f g : Frame Tid T} {pr pr' : Prog} {t : Tid} {q : Nat}
  {order : List Handle} {r : Ret Tid T}

omit [DecidableEq Tid] in
/-- Who stays inside `Context::with` goes on with the same kind of packet. -/
theorem Stays.blocks (h : Stays f g) (hg : g.inside = true) :
    g.blocks = f.blocks := by
  cases h <;> first | rfl | cases hg

/-- A thread comes to the wait for an answer by queueing a packet. -/
theorem offers_of_resume (hr : f.resume kind t order r = some g) (hg : g.offers = some q) :
    f.offers = some q ∨ (f.Calm kind ∧ r = .queued q) := by
  by_cases hp : g.Pauses
  · obtain ⟨handles, timeout, i, st, rfl, hretry⟩ := pauses_of_resume hr hp
    unfold retryResume choose at hretry
    split at hretry
    · obtain ⟨x, -, rfl⟩ := Option.map_eq_some_iff.mp hretry
      cases hg
    · obtain ⟨x, -, rfl⟩ := Option.map_eq_some_iff.mp hretry
      cases hg
    · cases hretry
      exact absurd hp (nextHandle_not_pauses (fun _ => id) id)
    · cases hretry
      cases hg
      exact .inr ⟨fun _ => rfl, rfl⟩
    · cases hretry
      cases hg
    · cases hretry
      cases hg
    · cases hretry
      exact .inl hg
    · cases hretry
      cases hg
    · cases hretry
      cases hg
    · obtain ⟨x, -, rfl⟩ := Option.map_eq_some_iff.mp hretry
      cases hg
    · cases hretry
      exact absurd hp (nextHandle_not_pauses (fun _ => id) id)
    · cases hretry
  · obtain ⟨job, mode, st, rfl⟩ : ∃ job mode st, g = .zero job mode st := by
      unfold offers at hg
      split at hg
      · exact ⟨_, _, _, rfl⟩
      · exact ⟨_, _, _, rfl⟩
      · exact absurd trivial hp
      · exact absurd trivial hp
      · cases hg
    obtain ⟨st₀, rfl⟩ : ∃ st₀, f = .zero job mode st₀ := by
      have hstays := resume_stays hr
      cases hstays <;> exact ⟨_, rfl⟩
    simp only [resume] at hr
    unfold zeroResume unselected finishWith at hr
    repeat' split at hr
    all_goals cases hr
    all_goals cases hg
    · exact .inr ⟨fun _ => rfl, rfl⟩
    · exact .inl rfl

/-- Only a section that queues a packet says so. -/
theorem queue_of_resume {w : Shared Tid T} {act : Act Tid T} {spurious : Bool}
    (he : w.exec t kind f.call pr spurious = some (act, .ret (.queued q)))
    (hr : f.resume kind t order (.queued q) = some g) :
    ∃ c d v, act = .queue c d v ∧ q = w.fresh := by
  cases f with
  | zero job mode st =>
    cases st with
    | pair =>
      rcases Shared.pair_cases (Option.some.inj he) with ⟨v, -, hact, hrep⟩ | ⟨-, hno⟩
      · cases hrep
        exact ⟨_, _, v, hact, rfl⟩
      · exact absurd rfl (hno q)
    | _ => cases hr
  | select handles timeout st =>
    cases st with
    | again i st =>
      cases st with
      | first =>
        obtain ⟨x, -, he⟩ := onHandle_exec he
        rcases Shared.retry_cases he with ⟨v, hact, hrep⟩ | ⟨-, hno⟩
        · cases hrep
          exact ⟨_, _, v, hact, rfl⟩
        · exact absurd rfl (hno q)
      | dropPacket p sel => cases sel <;> cases hr
      | _ => cases hr
    | _ => cases hr
  | plain job mode st => cases st <;> cases hr
  | finish job st => cases st <;> cases hr
  | close c d st => cases st <;> cases hr
  | _ => cases hr

/-- What a thread waits for after a step: what it waited for, or what the step has queued. -/
theorem Next.offers {w : Shared Tid T} {act : Act Tid T} (hn : Next kind w t f pr act g pr')
    (hg : g.offers = some q) :
    f.offers = some q ∨ (f.Calm kind ∧ (∃ c d v, act = .queue c d v) ∧ q = w.fresh) := by
  cases hn with
  | more he => exact .inl hg
  | ret he hr =>
    refine (offers_of_resume hr hg).imp_right ?_
    rintro ⟨hcalm, rfl⟩
    obtain ⟨c, d, v, hact, hq⟩ := queue_of_resume he hr
    exact ⟨hcalm, ⟨c, d, v, hact⟩, hq⟩

omit [DecidableEq Tid] in
/-- Who waits for an answer about its packet is registered. -/
theorem not_calm_of_offers (ho : f.offers = some q) : ¬ f.Calm kind := by
  intro hcalm
  have hin : (f.stake kind .start).inside = true := by
    unfold offers at ho
    split at ho
    · rfl
    · rfl
    · rfl
    · rfl
    · cases ho
  rw [hcalm] at hin
  cases hin

/-- Who waits for an answer about its packet puts up nothing new. -/
theorem not_enters_of_offers {w : Shared Tid T} {act : Act Tid T} {rep : Reply Tid T}
    {spurious : Bool} (ho : f.offers = some q)
    (he : w.exec t kind f.call pr spurious = some (act, rep)) {c : Nat} {d : Side} {e : Entry Tid} :
    ¬ Shared.Enters w t c d e act := by
  intro henters
  have hexp := Shared.exec_explains he
  cases act with
  | register | offer =>
    rcases calls_of_eq hexp.1 with ⟨job, mode, rfl, -⟩ | ⟨handles, timeout, i, x, rfl, -⟩ <;> cases ho
  | queue => exact not_calm_of_offers ho (World.calm_of_pairs hexp.1)
  | _ => exact henters

/-- A body enters `Context::with` by renewing its context. -/
theorem Next.entered {w : Shared Tid T} {act : Act Tid T} (hn : Next kind w t f pr act g pr')
    (hf : f.Typed kind) (hg : g.inside = true) : f.inside = true ∨ Shared.Renews act := by
  cases hcrit : f.call.critical kind pr with
  | none =>
    refine (FineWorld.inside_of_next hn hcrit hg).imp_right ?_
    rintro rfl
    trivial
  | some s =>
    have hents := enters_of_critical hf hcrit
    cases hn with
    | more he => exact .inl hg
    | ret he hr =>
      obtain ⟨p, rfl⟩ := FineWorld.queued_of_inside hents hr hg
      obtain ⟨c, d, v, rfl, -⟩ := queue_of_resume he hr
      exact .inr trivial

/-- What a thread has registered at a zero channel when it finds that it was selected, it had
    registered before. -/
theorem Next.made_before {w : Shared Tid T} {act : Act Tid T} {x : Place} {st : Tid → Stake}
    (hn : Next kind w t f pr act g pr') (hok : w.reg.Ok st) (hst : st t = f.stake kind pr)
    (hf : f.Typed kind) (hk : f.Knows t (w.reg.cx t).select) (hz : (kind x.chan).IsZero)
    (hsel : ((w.apply t act).reg.cx t).select = .operation (x.oper t))
    (hmade : (g.stake kind pr').made x) : (f.stake kind pr).made x := by
  have hin := inside_of_made hmade
  have hstays := hn.stays
  have hsame := Shared.cx_self hsel
  -- The thread has not begun a new scope in this step, as its context would be waiting then.
  have fresh : ¬ Shared.Renews act := by
    intro hrenews
    cases act with
    | reset | queue _ _ _ =>
      simp only [Shared.apply, Registry.reset, Registry.register, Registry.setWaker_cx,
        Function.update_self] at hsel
      cases hsel
    | _ => exact hrenews
  have hfin := (hn.entered hf hin).resolve_right fresh
  rw [hsame] at hsel
  cases f with
  | select handles timeout st' =>
    have hinside : ((select handles timeout st' : Frame Tid T).stake kind pr).inside = true := by
      cases st' with
      | again i st =>
        cases st with
        | dropPacket p sel =>
          -- Behind its packet the short pause is over.
          have hno : ¬ g.Calm kind := fun hcalm => by
            rw [hcalm] at hmade
            exact hmade
          cases hn with
          | more he => exact absurd (fun _ => rfl) hno
          | ret he hr =>
            simp only [resume, selectResume] at hr
            unfold retryResume at hr
            split at hr
            all_goals first
              | exact absurd (choose_calm hr) hno
              | (cases hr; exact absurd (nextHandle_calm (fun _ _ => rfl) fun _ => rfl) hno)
              | contradiction
        | _ => first | rfl | cases hfin
      | _ => first | rfl | cases hfin
    rw [← hst] at hinside
    obtain ⟨-, y, hy, hslot⟩ := hok.hit t _ hsel hinside
    rw [hst] at hy
    -- What it was selected for it had registered, and there is one registration of that name.
    have hplace : y.oper t = x.oper t := by rw [Place.oper, hslot]
    rcases hn.awaits_select hk (hsel.trans (congrArg _ hplace.symm)) hy with hg | ⟨hcalm, -⟩
    · rwa [← (stake_ok g pr').distinct y x hg hmade hslot]
    · rw [hcalm] at hmade
      cases hmade
  | zero job mode st' =>
    obtain ⟨q, hq⟩ : ∃ q, g.offers = some q := by
      cases hstays with
      | zero =>
        rename_i st
        cases st <;> first | exact ⟨_, rfl⟩ | cases hmade
      | same => cases st' <;> first | exact ⟨_, rfl⟩ | cases hmade
      | _ => cases hmade
    rcases hn.offers hq with hold | ⟨-, ⟨c, d, v, rfl⟩, -⟩
    · have hone : x = ⟨job.chan, job.side, 0⟩ := by
        cases hstays with
        | zero =>
          rename_i st
          cases st <;> first | exact hmade | cases hmade
        | same => cases st' <;> first | exact hmade | cases hmade
        | _ => cases hmade
      cases st' <;> first | exact hone | cases hold
    · exact absurd trivial fresh
  | plain job mode st' =>
    have halone : Alone kind job.chan job.side x := by
      cases hstays with
      | plain =>
        rename_i st
        cases st <;> first | exact hmade | exact hmade.2 | cases hmade
      | same => cases st' <;> first | exact hmade | exact hmade.2 | cases hmade
      | _ => cases hmade
    obtain ⟨-, rfl⟩ := halone
    exact absurd hz hf.not_zero
  | _ => cases hstays <;> cases hmade

end Frame

/-- What the memory at an address shows of the deal about it. -/
structure Shared.Shows (w : Shared Tid T) (p : Nat) (x : Lib.Deal (Party Tid) T) : Prop where
  born : p < w.fresh
  side : x.gives = true ↔ x.owner.place.side = .send
  fits : x.Fits (w.packet p).ready (w.packet p).msg
  kept : (w.packet p).onStack = x.kept

namespace World

/-- **The ledger agrees with the packets, the queues, the contexts and the operations.** -/
structure Accounts (kind : Nat → Kind T) (w : World Tid T) (D : Ledger Tid T) : Prop where
  shows : ∀ p x, D p = some x → w.shared.Shows p x
  /-- A queued entry of a zero channel offers its packet. -/
  queued : ∀ c d e, (kind c).IsZero → e ∈ (w.shared.reg.waker c d).entries →
    ∃ p, e.packet = some p ∧ D.Owns e.owner (w.thread e.owner).ops p fun x =>
      x.owner.place = ⟨c, d, e.oper.slot⟩ ∧ x.kept = (w.thread e.owner).frame.blocks ∧
        x.stage = .offered
  own : ∀ c d e q, e ∈ (w.shared.reg.waker c d).entries →
    (w.thread e.owner).frame.offers = some q → e.packet = some q
  told : ∀ t p op, (w.thread t).frame.offers = some p →
    (w.shared.reg.cx t).select = .operation op → (w.shared.reg.cx t).packet = some p
  /-- An operation that was selected has a partner. -/
  selected : ∀ t x, (stakes kind w t).made x → (kind x.chan).IsZero →
    (w.shared.reg.cx t).select = .operation (x.oper t) →
    ∃ p, (w.shared.reg.cx t).packet = some p ∧ D.Owns t (w.thread t).ops p fun y =>
      y.owner.place = x ∧ y.kept = (w.thread t).frame.blocks ∧ y.Open
  grip : ∀ t, (w.thread t).frame.Grip D t (w.thread t).ops

variable {kind : Nat → Kind T} {w w' : World Tid T} {t : Tid} {act : Act Tid T} {th : Thread Tid T}
  {count : Nat → Side → Nat} {D D' : Ledger Tid T}

/-! ## Queues and contexts after a turn -/

/-- Who is not in the body of an operation has registered nothing, and does so afterwards. -/
theorem Turn.in_body (ht : Turn kind w t act th count) :
    (∃ f pr, th = { w.thread t with frame := f, prog := pr } ∧
      Frame.Next kind w.shared t (w.thread t).frame (w.thread t).prog act f pr) ∨
    (act = .silent ∧ (w.thread t).frame.Calm kind ∧ th.frame.Calm kind) := by
  cases ht with
  | next hn => exact .inl ⟨_, _, rfl, hn⟩
  | start hover huses => exact .inr ⟨rfl, Frame.over_calm hover, opFrame_calm _⟩
  | complete hframe hside =>
    refine .inr ⟨rfl, ?_, Frame.finishWith_calm _ _⟩
    rw [hframe]
    exact fun _ => rfl
  | drop hover hpos hfree =>
    refine .inr ⟨rfl, Frame.over_calm hover, ?_⟩
    dsimp only
    split
    · exact (lastDropped_rests _ _).1
    · exact fun _ => rfl

omit [DecidableEq Tid] in
theorem inside_of_listed (hs : Sound kind w) {c : Nat} {d : Side} {e : Entry Tid}
    (he : e ∈ (w.shared.reg.waker c d).entries) : (stakes kind w e.owner).inside = true :=
  (hs.books.stake e.owner).inside _ (hs.books.listed c d e he)

/-- Who has registered something is in the body of an operation. -/
theorem Turn.of_inside (ht : Turn kind w t act th count)
    (hin : (stakes kind w t).inside = true) :
    ∃ f pr, th = { w.thread t with frame := f, prog := pr } ∧
      Frame.Next kind w.shared t (w.thread t).frame (w.thread t).prog act f pr := by
  refine ht.in_body.resolve_right ?_
  rintro ⟨-, hcalm, -⟩
  rw [stakes, hcalm] at hin
  cases hin

/-- A step that queues something is one in the body of an operation. -/
theorem Turn.of_enters (ht : Turn kind w t act th count) {c : Nat} {d : Side} {e : Entry Tid}
    (he : Shared.Enters w.shared t c d e act) :
    ∃ f pr, th = { w.thread t with frame := f, prog := pr } ∧
      Frame.Next kind w.shared t (w.thread t).frame (w.thread t).prog act f pr := by
  refine ht.in_body.resolve_right ?_
  rintro ⟨rfl, -⟩
  exact he

omit [DecidableEq Tid] in
theorem owner_of_enters {c : Nat} {d : Side} {e : Entry Tid} {w : Shared Tid T}
    (he : Shared.Enters w t c d e act) : e.owner = t := by
  cases act <;> first | exact he.elim | (obtain ⟨-, -, rfl⟩ := he; rfl)

/-- What is queued after a turn of the thread was queued before, or has just been queued. -/
theorem After.mem (ha : After w w' t act th count) {c : Nat} {d : Side} {e : Entry Tid}
    (he : e ∈ (w'.shared.reg.waker c d).entries) :
    e ∈ (w.shared.reg.waker c d).entries ∨ Shared.Enters w.shared t c d e act := by
  rw [ha.shared] at he
  exact Shared.mem_apply he

/-- A turn of thread `t` between reachable states. -/
structure Stepped (kind : Nat → Kind T) (w w' : World Tid T) (t : Tid) (act : Act Tid T)
    (th : Thread Tid T) (count : Nat → Side → Nat) : Prop where
  sound : Sound kind w
  sound' : Sound kind w'
  aware : Aware w
  typed : (w.thread t).frame.Typed kind
  turn : Turn kind w t act th count
  after : After w w' t act th count

namespace Accounts

theorem queued_after (h : Accounts kind w D) (hx : Stepped kind w w' t act th count)
    (hold : ∀ c d e q, (kind c).IsZero → e ∈ (w.shared.reg.waker c d).entries →
      e ∈ (w'.shared.reg.waker c d).entries → e.packet = some q → D' q = D q)
    (hnew : ∀ c d e, (kind c).IsZero → Shared.Enters w.shared t c d e act →
      ∃ p, e.packet = some p ∧ D'.Owns t (w.thread t).ops p fun x =>
        x.owner.place = ⟨c, d, e.oper.slot⟩ ∧ x.kept = th.frame.blocks ∧ x.stage = .offered)
    {c : Nat} {d : Side} {e : Entry Tid} (hz : (kind c).IsZero)
    (he : e ∈ (w'.shared.reg.waker c d).entries) :
    ∃ p, e.packet = some p ∧ D'.Owns e.owner (w'.thread e.owner).ops p fun x =>
      x.owner.place = ⟨c, d, e.oper.slot⟩ ∧ x.kept = (w'.thread e.owner).frame.blocks ∧
        x.stage = .offered := by
  have ht := hx.turn
  have ha := hx.after
  rcases ha.mem he with hmem | henters
  · obtain ⟨p, hp, x, hdeal, hx'⟩ := h.queued c d e hz hmem
    refine ⟨p, hp, x, (hold c d e p hz hmem he hp).trans hdeal, ?_⟩
    by_cases hu : e.owner = t
    · obtain ⟨f, pr, rfl, hn⟩ := ht.of_inside (hu ▸ inside_of_listed hx.sound hmem)
      have hin := Frame.inside_of_made
        ((hx.sound'.books.stake _).sub _ (hx.sound'.books.listed c d e he))
      rw [hu, ha.frame] at hin
      rw [hu, ha.ops, ha.frame, hn.stays.blocks hin]
      rwa [hu] at hx'
    · rwa [ha.others hu]
  · obtain ⟨f, pr, rfl, -⟩ := ht.of_enters henters
    rw [owner_of_enters henters, ha.ops, ha.frame]
    exact hnew c d e hz henters

theorem own_after (h : Accounts kind w D) (hx : Stepped kind w w' t act th count) {c : Nat}
    {d : Side} {e : Entry Tid} {q : Nat} (he : e ∈ (w'.shared.reg.waker c d).entries)
    (hq : (w'.thread e.owner).frame.offers = some q) : e.packet = some q := by
  have ht := hx.turn
  have ha := hx.after
  rcases ha.mem he with hmem | henters
  · by_cases hu : e.owner = t
    · have hin := hu ▸ inside_of_listed hx.sound hmem
      obtain ⟨f, pr, rfl, hn⟩ := ht.of_inside hin
      rw [hu, ha.frame] at hq
      rcases hn.offers hq with hold | ⟨hcalm, -⟩
      · exact h.own c d e q hmem (hu ▸ hold)
      · rw [stakes, hcalm] at hin
        cases hin
    · rw [ha.others hu] at hq
      exact h.own c d e q hmem hq
  · obtain ⟨f, pr, rfl, hn⟩ := ht.of_enters henters
    rw [owner_of_enters henters, ha.frame] at hq
    rcases hn.offers hq with hold | ⟨hcalm, ⟨c', d', v, rfl⟩, rfl⟩
    · obtain ⟨spurious, rep, hexec, -⟩ := hn.exec
      exact absurd henters (Frame.not_enters_of_offers hold hexec)
    · obtain ⟨rfl, rfl, rfl⟩ := henters
      rfl

theorem told_after (h : Accounts kind w D) (hx : Stepped kind w w' t act th count) {u : Tid}
    {p : Nat} {op : Operation Tid} (hp : (w'.thread u).frame.offers = some p)
    (hsel : (w'.shared.reg.cx u).select = .operation op) :
    (w'.shared.reg.cx u).packet = some p := by
  have ht := hx.turn
  have ha := hx.after
  rw [ha.shared] at hsel ⊢
  by_cases hu : u = t
  · subst hu
    rw [ha.frame] at hp
    rcases ht.in_body with ⟨f, pr, rfl, hn⟩ | ⟨-, -, hcalm⟩
    · have hsame := Shared.cx_self hsel
      rw [hsame] at hsel ⊢
      rcases hn.offers hp with hold | ⟨-, ⟨c, d, v, rfl⟩, rfl⟩
      · exact h.told u p op hold hsel
      · rw [← hsame] at hsel
        simp only [Shared.apply, Registry.register, Registry.reset, Registry.setWaker_cx,
          Function.update_self] at hsel
        cases hsel
    · exact absurd hcalm (Frame.not_calm_of_offers hp)
  · rw [ha.others hu] at hp
    rcases (Shared.cx_others hu : (w.shared.apply t act).reg.cx u = w.shared.reg.cx u ∨ _) with
      hsame | ⟨-, hdisc | ⟨c, d, e, rfl, he, rfl, hcx⟩⟩
    · rw [hsame] at hsel ⊢
      exact h.told u p op hp hsel
    · rw [hdisc] at hsel
      cases hsel
    · rw [hcx, h.own c d e p (Waker.wakeOne_some he).1 hp]
      rfl

/-- The operations that were selected have partners after a turn of thread `t`. -/
theorem selected_after (h : Accounts kind w D) (hx : Stepped kind w w' t act th count)
    (hD : D.Step t D')
    (hopen : ∀ q x pl, D q = some x → x.Open → (stakes kind w t).made pl → D' q = some x)
    (hmeet : ∀ c d e q x, (kind c).IsZero → act = .wakeOne c d →
      (w.shared.reg.wakeOne c d t).1 = some e → e.packet = some q → D q = some x →
      x.stage = .offered → ∃ a y, x.next (.meet a) = some y ∧ D' q = some y)
    {u : Tid} {x : Place} (hmade : (stakes kind w' u).made x) (hz : (kind x.chan).IsZero)
    (hsel : (w'.shared.reg.cx u).select = .operation (x.oper u)) :
    ∃ p, (w'.shared.reg.cx u).packet = some p ∧ D'.Owns u (w'.thread u).ops p fun y =>
      y.owner.place = x ∧ y.kept = (w'.thread u).frame.blocks ∧ y.Open := by
  obtain ⟨hs, -, hw, hf, ht, ha⟩ := hx
  rw [ha.shared] at hsel ⊢
  by_cases hu : u = t
  · subst hu
    rw [stakes, ha.frame, ha.prog] at hmade
    rcases ht.in_body with ⟨f, pr, rfl, hn⟩ | ⟨-, -, hcalm⟩
    · have hold := hn.made_before hs.books rfl hf (hw.knows u) hz hsel hmade
      have hsame := Shared.cx_self hsel
      rw [hsame] at hsel ⊢
      obtain ⟨p, hp, y, hy, hthread, hop, hplace, hkept, ho⟩ := h.selected u x hold hz hsel
      refine ⟨p, hp, y, hopen p y x hy ho hold, hthread, hop.trans ha.ops.symm, hplace, ?_, ho⟩
      rw [ha.frame, hn.stays.blocks (Frame.inside_of_made hmade)]
      exact hkept
    · rw [hcalm] at hmade
      cases hmade
  -- Another thread takes the step. It may be the one that selects the operation.
  · rw [stakes, ha.others hu] at hmade
    rw [ha.others hu]
    rcases (Shared.cx_others hu : (w.shared.apply t act).reg.cx u = w.shared.reg.cx u ∨ _) with
      hsame | ⟨-, hdisc | ⟨c, d, e, rfl, he, rfl, hcx⟩⟩
    · rw [hsame] at hsel ⊢
      obtain ⟨p, hp, hown⟩ := h.selected u x hmade hz hsel
      exact ⟨p, hp, hD.owns hown hu⟩
    · rw [hdisc] at hsel
      cases hsel
    · rw [hcx] at hsel ⊢
      have hmem := (Waker.wakeOne_some he).1
      have hlisted := hs.books.listed c d e hmem
      have hoper : e.oper = x.oper e.owner := by
        cases hp : e.packet <;> rw [hp] at hsel <;> exact Selected.operation.inj hsel
      -- The selected entry is that of this registration, since the names are distinct.
      have hplace : (⟨c, d, e.oper.slot⟩ : Place) = x :=
        (hs.books.stake e.owner).distinct _ _ ((hs.books.stake e.owner).sub _ hlisted) hmade
          (by rw [hoper])
      obtain ⟨p, hp, y, hy, hthread, hop, hpl, hkept, hst⟩ :=
        h.queued c d e (by rwa [← hplace] at hz) hmem
      obtain ⟨a, z, hnext, hz'⟩ :=
        hmeet c d e p y (by rwa [← hplace] at hz) rfl he hp hy hst
      obtain ⟨howner, -, hkept'⟩ := Lib.Deal.next_static hnext
      exact ⟨p, by rw [hp]; rfl, z, hz', by rwa [howner], by rwa [howner],
        by rw [howner, hpl, hplace], hkept'.trans hkept, Lib.Deal.open_of_meet hnext⟩

/-- A step whose move in the ledger is known. -/
theorem after (h : Accounts kind w D) (hx : Stepped kind w w' t act th count)
    (hD : D.Step t D') (hshows : ∀ p x, D' p = some x → (w.shared.apply t act).Shows p x)
    (hold : ∀ c d e q, (kind c).IsZero → e ∈ (w.shared.reg.waker c d).entries →
      e ∈ (w'.shared.reg.waker c d).entries → e.packet = some q → D' q = D q)
    (hnew : ∀ c d e, (kind c).IsZero → Shared.Enters w.shared t c d e act →
      ∃ p, e.packet = some p ∧ D'.Owns t (w.thread t).ops p fun x =>
        x.owner.place = ⟨c, d, e.oper.slot⟩ ∧ x.kept = th.frame.blocks ∧ x.stage = .offered)
    (hopen : ∀ q x pl, D q = some x → x.Open → (stakes kind w t).made pl → D' q = some x)
    (hmeet : ∀ c d e q x, (kind c).IsZero → act = .wakeOne c d →
      (w.shared.reg.wakeOne c d t).1 = some e → e.packet = some q → D q = some x →
      x.stage = .offered → ∃ a y, x.next (.meet a) = some y ∧ D' q = some y)
    (hgrip : th.frame.Grip D' t th.ops) : Accounts kind w' D' where
  shows := by
    rw [hx.after.shared]
    exact hshows
  queued := fun _ _ _ hz he => h.queued_after hx hold hnew hz he
  own := fun _ _ _ _ he hq => h.own_after hx he hq
  told := fun _ _ _ hp hsel => h.told_after hx hp hsel
  selected := fun _ _ hmade hz hsel => h.selected_after hx hD hopen hmeet hmade hz hsel
  grip := by
    intro u
    by_cases hu : u = t
    · subst hu
      rw [hx.after.frame, hx.after.ops]
      exact hgrip
    · rw [hx.after.others hu]
      exact hD.grip (h.grip u) hu

omit [DecidableEq Tid] in
/-- A packet has one entry. -/
theorem queued_unique (h : Accounts kind w D) {c c' : Nat} {d d' : Side} {e e' : Entry Tid}
    {p : Nat} (hz : (kind c).IsZero) (hz' : (kind c').IsZero)
    (he : e ∈ (w.shared.reg.waker c d).entries) (he' : e' ∈ (w.shared.reg.waker c' d').entries)
    (hp : e.packet = some p) (hp' : e'.packet = some p) : c' = c ∧ d' = d ∧ e'.oper = e.oper := by
  obtain ⟨q, hq, x, hx, hthread, -, hplace, -⟩ := h.queued c d e hz he
  obtain ⟨q', hq', x', hx', hthread', -, hplace', -⟩ := h.queued c' d' e' hz' he'
  obtain rfl : p = q := Option.some.inj (hp.symm.trans hq)
  obtain rfl : p = q' := Option.some.inj (hp'.symm.trans hq')
  obtain rfl : x = x' := Option.some.inj (hx.symm.trans hx')
  obtain ⟨rfl, rfl, hslot⟩ := Place.mk.inj (hplace.symm.trans hplace')
  refine ⟨rfl, rfl, ?_⟩
  have hown : e'.owner = e.owner := hthread'.symm.trans hthread
  obtain ⟨⟨u, s⟩, pk⟩ := e
  obtain ⟨⟨u', s'⟩, pk'⟩ := e'
  cases hown
  cases hslot
  rfl

/-- A step that has nothing to do with packets. -/
theorem idle (h : Accounts kind w D) (hx : Stepped kind w w' t act th count)
    (hpacket : (w.shared.apply t act).packet = w.shared.packet)
    (hfresh : (w.shared.apply t act).fresh = w.shared.fresh)
    (henters : ∀ c d e, (kind c).IsZero → ¬ Shared.Enters w.shared t c d e act)
    (hwake : ∀ c d e, (kind c).IsZero → act = .wakeOne c d →
      (w.shared.reg.wakeOne c d t).1 ≠ some e)
    (hgrip : th.frame.Grip D t th.ops) : Accounts kind w' D := by
  refine h.after hx .idle (fun p x hp => ?_) (fun _ _ _ _ _ _ _ _ => rfl)
    (fun c d e hz he => absurd he (henters c d e hz)) (fun _ _ _ hq _ _ => hq)
    (fun c d e _ _ hz hact he => absurd he (hwake c d e hz hact)) hgrip
  obtain ⟨born, side, fits, kept⟩ := h.shows p x hp
  exact ⟨by rwa [hfresh], side, by rwa [hpacket], by rwa [hpacket]⟩

/-- A step that makes a move about packet `p`. -/
theorem move (h : Accounts kind w D) (hx : Stepped kind w w' t act th count) {p : Nat}
    {x y : Lib.Deal (Party Tid) T} (hm : D.Moves t p x y)
    (hother : ∀ q, q ≠ p → (w.shared.apply t act).packet q = w.shared.packet q)
    (hfresh : (w.shared.apply t act).fresh = w.shared.fresh)
    (hfits : y.Fits ((w.shared.apply t act).packet p).ready ((w.shared.apply t act).packet p).msg)
    (hstack : ((w.shared.apply t act).packet p).onStack = (w.shared.packet p).onStack)
    (henters : ∀ c d e, (kind c).IsZero → ¬ Shared.Enters w.shared t c d e act)
    (hgone : ∀ c d e, (kind c).IsZero → e ∈ (w.shared.reg.waker c d).entries →
      e ∈ (w'.shared.reg.waker c d).entries → e.packet ≠ some p)
    (hclosed : x.Open → ∀ pl, ¬ (stakes kind w t).made pl)
    (hwake : ∀ c d e, (kind c).IsZero → act = .wakeOne c d →
      (w.shared.reg.wakeOne c d t).1 = some e → e.packet = some p ∧ ∃ a, x.next (.meet a) = some y)
    (hgrip : th.frame.Grip (D.put p y) t th.ops) : Accounts kind w' (D.put p y) := by
  obtain ⟨mv, a, hnext, -⟩ := hm.next
  obtain ⟨howner, hgives, hkept⟩ := Lib.Deal.next_static hnext
  refine h.after hx (.move hm) (fun q z hz => ?_) (fun c d e q hz he he' hq => ?_)
    (fun c d e hz he => absurd he (henters c d e hz)) (fun q z pl hz ho hmade => ?_)
    (fun c d e q z hz hact he hq hdeal hst => ?_) hgrip
  · by_cases hqp : q = p
    · subst hqp
      obtain rfl := Option.some.inj (Ledger.put_self.symm.trans hz)
      obtain ⟨born, side, -, kept⟩ := h.shows q x hm.deal
      exact ⟨hfresh ▸ born, by rw [hgives, howner, side], hfits, by rw [hstack, hkept, kept]⟩
    · rw [Ledger.put_of_ne hqp] at hz
      obtain ⟨born, side, fits, kept⟩ := h.shows q z hz
      exact ⟨hfresh ▸ born, side, by rwa [hother q hqp], by rwa [hother q hqp]⟩
  · refine Ledger.put_of_ne ?_
    rintro rfl
    exact hgone c d e hz he he' hq
  · refine (Ledger.put_of_ne ?_).trans hz
    rintro rfl
    obtain rfl := Option.some.inj (hm.deal.symm.trans hz)
    exact hclosed ho pl hmade
  · obtain ⟨hp, b, hmeet⟩ := hwake c d e hz hact he
    obtain rfl := Option.some.inj (hp.symm.trans hq)
    obtain rfl := Option.some.inj (hm.deal.symm.trans hdeal)
    exact ⟨b, y, hmeet, Ledger.put_self⟩

/-- A step outside `Context::with` that makes a move about a packet that is on offer no more. -/
theorem fill (h : Accounts kind w D) (hx : Stepped kind w w' t act th count) {p : Nat}
    {x y : Lib.Deal (Party Tid) T} (hm : D.Moves t p x y) (hst : x.stage ≠ .offered)
    (hcalm : (w.thread t).frame.Calm kind) (hact : act = .silent ∨ ∃ v, act = .setPacket p v)
    (hfits : y.Fits ((w.shared.apply t act).packet p).ready ((w.shared.apply t act).packet p).msg)
    (hstack : ((w.shared.apply t act).packet p).onStack = (w.shared.packet p).onStack)
    (hgrip : th.frame.Grip (D.put p y) t th.ops) : Accounts kind w' (D.put p y) := by
  refine h.move hx hm (fun q hq => ?_) ?_ hfits hstack (fun c d e _ he => ?_)
    (fun c d e hz he _ hp => ?_) (fun _ pl hmade => ?_) (fun c d e _ hwake => ?_) hgrip
  · rcases hact with rfl | ⟨v, rfl⟩
    · rfl
    · exact Function.update_of_ne hq _ _
  · rcases hact with rfl | ⟨v, rfl⟩ <;> rfl
  · rcases hact with rfl | ⟨v, rfl⟩ <;> exact he
  · obtain ⟨q, hq, z, hz', -, -, -, -, hoff⟩ := h.queued c d e hz he
    obtain rfl := Option.some.inj (hp.symm.trans hq)
    obtain rfl := Option.some.inj (hm.deal.symm.trans hz')
    exact hst hoff
  · rw [stakes, hcalm] at hmade
    exact hmade
  · rcases hact with rfl | ⟨v, rfl⟩ <;> cases hwake

/-- A step that takes an offer back. -/
theorem takeBack (h : Accounts kind w D) (hx : Stepped kind w w' t act th count) {c : Nat}
    {d : Side} {e : Entry Tid} {p : Nat} {x y : Lib.Deal (Party Tid) T} (hz : (kind c).IsZero)
    (hact : act = .unregister c d e.oper.slot) (he : e ∈ (w.shared.reg.waker c d).entries)
    (howner : e.owner = t) (hp : e.packet = some p) (hm : D.Moves t p x y)
    (hst : x.stage = .offered)
    (hfits : y.Fits (w.shared.packet p).ready (w.shared.packet p).msg)
    (hgrip : th.frame.Grip (D.put p y) t th.ops) : Accounts kind w' (D.put p y) := by
  subst hact
  refine h.move hx hm (fun _ _ => rfl) rfl hfits rfl (fun _ _ _ _ he => he)
    (fun c' d' e' hz' he' hnew hp' => ?_) (fun ho => absurd hst ho.not_offered)
    (fun _ _ _ _ hwake => by cases hwake) hgrip
  obtain ⟨rfl, rfl, hoper⟩ := h.queued_unique hz hz' he he' hp hp'
  rw [hx.after.shared] at hnew
  change e' ∈ ((w.shared.reg.unregister c' d' ⟨t, e.oper.slot⟩).2.waker c' d').entries at hnew
  rw [Registry.unregister, (Registry.setWaker_self c' d' _).1] at hnew
  refine ((Registry.mem_unregister hx.sound.books).mp hnew).2 (hoper.trans ?_)
  subst howner
  rfl

/-- A step that comes to a partner. -/
theorem meet (h : Accounts kind w D) (hx : Stepped kind w w' t act th count) {c : Nat}
    {d : Side} {e : Entry Tid} {p : Nat} {x y : Lib.Deal (Party Tid) T} {a : Party Tid}
    (hz : (kind c).IsZero) (hact : act = .wakeOne c d) (he : (w.shared.reg.wakeOne c d t).1 = some e)
    (hp : e.packet = some p) (hdeal : D p = some x) (hnext : x.next (.meet a) = some y)
    (ha : a.thread = t) (hst : x.stage = .offered)
    (hgrip : th.frame.Grip (D.put p y) t th.ops) : Accounts kind w' (D.put p y) := by
  have hmem := (Waker.wakeOne_some he).1
  subst hact
  refine h.move hx ⟨hdeal, _, a, hnext, rfl, ha⟩ (fun _ _ => rfl) rfl
    ((h.shows p x hdeal).fits.meet hnext) rfl (fun _ _ _ _ he => he)
    (fun c' d' e' hz' he' hnew hp' => ?_) (fun ho => absurd hst ho.not_offered)
    (fun c' d' e' hz' hwake he' => ?_) hgrip
  · obtain ⟨rfl, rfl, hoper⟩ := h.queued_unique hz hz' hmem he' hp hp'
    rw [hx.after.shared] at hnew
    exact ((Registry.mem_wakeOne hx.sound.books he _ _ _).mp hnew).2 ⟨rfl, rfl, hoper⟩
  · cases hwake
    obtain rfl := Option.some.inj (he.symm.trans he')
    exact ⟨hp, a, hnext⟩

/-- The deal that begins when an operation queues a packet with this in it. -/
def offered (w : World Tid T) (t : Tid) (pl : Place) (v : Packet T) : Lib.Deal (Party Tid) T where
  owner := ⟨t, (w.thread t).ops, pl⟩
  partner := none
  gives := pl.side = .send
  kept := v.onStack
  msg := v.msg
  stage := .offered

omit [DecidableEq Tid] in
theorem unborn (h : Accounts kind w D) : D w.shared.fresh = none := by
  cases hD : D w.shared.fresh with
  | none => rfl
  | some x => exact absurd (h.shows _ x hD).born (Nat.lt_irrefl _)

/-- A step that puts a packet up. -/
theorem enter (h : Accounts kind w D) (hx : Stepped kind w w' t act th count) (pl : Place)
    {v : Packet T} (hreg : act = .offer pl.chan pl.side pl.slot ∧ v = .emptyOnHeap ∨
      act = .queue pl.chan pl.side v ∧ pl.slot = 0)
    (hready : v.ready = false) (hfull : v.msg.isSome = (decide (pl.side = .send) && v.onStack))
    (hblocks : v.onStack = th.frame.blocks)
    (hgrip : ∀ D', th.frame.Grip D' t th.ops) :
    Accounts kind w' (D.put w.shared.fresh (offered w t pl v)) := by
  have hpacket : (w.shared.apply t act).packet =
      Function.update w.shared.packet w.shared.fresh v := by
    rcases hreg with ⟨rfl, rfl⟩ | ⟨rfl, -⟩ <;> rfl
  have hfresh : (w.shared.apply t act).fresh = w.shared.fresh + 1 := by
    rcases hreg with ⟨rfl, -⟩ | ⟨rfl, -⟩ <;> rfl
  have hkeep : ∀ q x, D q = some x → D.put w.shared.fresh (offered w t pl v) q = some x := by
    exact Ledger.extends_put h.unborn
  refine h.after hx (.enter h.unborn) (fun q z hz => ?_) (fun c d e q hz he _ hq => ?_)
    (fun c d e hz he => ?_) (fun q z _ hz _ _ => hkeep q z hz)
    (fun c d e q z hz hact _ _ _ _ => ?_) (hgrip _)
  · by_cases hq : q = w.shared.fresh
    · subst hq
      obtain rfl := Option.some.inj (Ledger.put_self.symm.trans hz)
      refine ⟨by omega, by simp [offered], ?_, ?_⟩
      · rw [hpacket, Function.update_self]
        exact ⟨hready, rfl, hfull⟩
      · rw [hpacket, Function.update_self]
        rfl
    · rw [Ledger.put_of_ne hq] at hz
      obtain ⟨born, side, fits, kept⟩ := h.shows q z hz
      rw [← Function.update_of_ne hq v w.shared.packet, ← hpacket] at fits kept
      exact ⟨by omega, side, fits, kept⟩
  · obtain ⟨q', hq', x, hdeal, -⟩ := h.queued c d e hz he
    obtain rfl := Option.some.inj (hq.symm.trans hq')
    rw [hkeep q x hdeal, hdeal]
  · have henter : c = pl.chan ∧ d = pl.side ∧ e = ⟨⟨t, pl.slot⟩, some w.shared.fresh⟩ := by
      rcases hreg with ⟨rfl, -⟩ | ⟨rfl, hslot⟩
      · obtain ⟨rfl, rfl, rfl⟩ := he
        exact ⟨rfl, rfl, rfl⟩
      · obtain ⟨rfl, rfl, rfl⟩ := he
        exact ⟨rfl, rfl, by rw [hslot]⟩
    obtain ⟨rfl, rfl, rfl⟩ := henter
    exact ⟨_, rfl, offered w t pl v, Ledger.put_self, rfl, rfl, rfl, hblocks, rfl⟩
  · rcases hreg with ⟨rfl, -⟩ | ⟨rfl, -⟩ <;> cases hact

end Accounts

end World

end CrossbeamChannel
