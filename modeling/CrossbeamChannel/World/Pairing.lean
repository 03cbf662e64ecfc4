import CrossbeamChannel.World.Rendezvous

/-!
# Every step keeps the accounts

Each place of each body is looked at once: it leaves the packets alone, or it makes one move in the
ledger, and then it holds its part of what the move leads to.

The places are those of `ZeroStage`, `FinishStage` and `RetryStage`, and the rounds of tries of
`run_select`, which may come to a partner. `Deed` says what the step does, in the words of the ledger. The
lemmas are about one place each, for the source is likewise one line each: `replace(Some(msg))`,
`ready.store(true)`, `replace(None)`, `Box::from_raw`.
-/

namespace CrossbeamChannel

variable {Tid T : Type} [DecidableEq Tid]

/-- The step has nothing to do with packets. -/
structure Shared.Quiet (kind : Nat → Kind T) (w : Shared Tid T) (t : Tid) (act : Act Tid T) : Prop where
  packet : (w.apply t act).packet = w.packet
  fresh : (w.apply t act).fresh = w.fresh
  enters : ∀ c d e, (kind c).IsZero → ¬ Shared.Enters w t c d e act
  wake : ∀ c d e, (kind c).IsZero → act = .wakeOne c d → (w.reg.wakeOne c d t).1 ≠ some e
  unregister : ∀ c d slot e, (kind c).IsZero → act = .unregister c d slot →
    (w.reg.unregister c d ⟨t, slot⟩).1 ≠ some e

/-- The move a call makes about the packet it is called with. -/
def Call.move {P : Type} : Call T → Option (Nat × Lib.Deal.Move P T)
  | .storeMsg p msg => some (p, .store msg)
  | .setReady p => some (p, .publish)
  | .takeMsg p => some (p, .take)
  | .dropPacket p => some (p, .free)
  | _ => Option.none

/-- No step of such a call has anything to do with packets. -/
def Call.Quiet (kind : Nat → Kind T) : Call T → Prop
  | .start c _ | .retry c _ | .register c _ _ | .unregister c _ _ | .wakeOne c _ => ¬ (kind c).IsZero
  | .pair _ _ _ | .withdraw _ _ | .storeMsg _ _ | .setReady _ | .takeMsg _ | .dropPacket _ => False
  | _ => True

omit [DecidableEq Tid] in
theorem Call.Quiet.move {P : Type} {kind : Nat → Kind T} {call : Call T} (h : call.Quiet kind) :
    (call.move : Option (Nat × Lib.Deal.Move P T)) = Option.none := by
  cases call <;> first | rfl | exact h.elim

namespace Shared

variable {w : Shared Tid T} {t : Tid} {kind : Nat → Kind T} {call : Call T} {pr : Prog}
  {act : Act Tid T} {rep : Reply Tid T} {spurious : Bool}

theorem quiet_silent : w.Quiet kind t .silent :=
  ⟨rfl, rfl, fun _ _ _ _ he => he, fun _ _ _ _ h => (by cases h), fun _ _ _ _ _ h => (by cases h)⟩

/-- Taking back a registration that is not there. -/
theorem quiet_unregister {c slot : Nat} {d : Side}
    (hnone : (w.reg.unregister c d ⟨t, slot⟩).1 = none) : w.Quiet kind t (.unregister c d slot) := by
  refine ⟨rfl, rfl, fun _ _ _ _ he => he, fun _ _ _ _ h => (by cases h), ?_⟩
  rintro c' d' slot' e - ⟨rfl, rfl, rfl⟩ he
  rw [hnone] at he
  cases he

/-- What is queued stays there until somebody selects it or its owner takes it back. -/
theorem remains {st : Tid → Stake} (hok : w.reg.Ok st) {c : Nat} {d : Side} {e : Entry Tid}
    (he : e ∈ (w.reg.waker c d).entries) :
    e ∈ ((w.apply t act).reg.waker c d).entries ∨
      (act = .wakeOne c d ∧ (w.reg.wakeOne c d t).1 = some e) ∨
      ∃ slot, act = .unregister c d slot ∧ (w.reg.unregister c d ⟨t, slot⟩).1 = some e := by
  have registered : ∀ {r : Registry Tid} {c' d' y}, r.waker = w.reg.waker →
      e ∈ ((r.register c' d' y).waker c d).entries := by
    intro r c' d' y hr
    rw [Registry.register, Registry.mem_setWaker, hr]
    by_cases hcd : c = c' ∧ d = d'
    · obtain ⟨rfl, rfl⟩ := hcd
      exact .inl ⟨rfl, rfl, List.mem_append_left _ he⟩
    · exact .inr ⟨hcd, he⟩
  -- Two entries of one queue differ in their operations.
  have same : ∀ {y : Entry Tid}, y ∈ (w.reg.waker c d).entries → e.oper = y.oper → y = e := fun hy heq =>
    List.inj_on_of_nodup_map (hok.nodup c d) hy he heq.symm
  cases act with
  | register c' d' slot | offer c' d' slot => exact .inl (registered rfl)
  | queue c' d' v => exact .inl (registered (r := w.reg.reset t) rfl)
  | unregister c' d' slot =>
    by_cases hcd : c = c' ∧ d = d' ∧ e.oper = ⟨t, slot⟩
    · obtain ⟨rfl, rfl, hop⟩ := hcd
      cases hfound : (w.reg.unregister c d ⟨t, slot⟩).1 with
      | none =>
        have hno := List.find?_eq_none.mp hfound e he
        exact absurd hop (by simpa using hno)
      | some y =>
        obtain rfl : y = e := same (List.mem_of_find?_eq_some hfound)
          (hop.trans (Eq.symm (by simpa using List.find?_some hfound)))
        exact .inr (.inr ⟨slot, rfl, hfound⟩)
    · left
      change e ∈ ((w.reg.unregister c' d' ⟨t, slot⟩).2.waker c d).entries
      rw [Registry.unregister, Registry.mem_setWaker]
      by_cases hc : c = c' ∧ d = d'
      · obtain ⟨rfl, rfl⟩ := hc
        exact .inl ⟨rfl, rfl, (Registry.mem_unregister hok).mpr ⟨he, fun hop => hcd ⟨rfl, rfl, hop⟩⟩⟩
      · exact .inr ⟨hc, he⟩
  | wakeOne c' d' =>
    cases hfound : (w.reg.wakeOne c' d' t).1 with
    | none =>
      left
      change e ∈ ((w.reg.wakeOne c' d' t).2.waker c d).entries
      rwa [hok.wakeOne_none hfound]
    | some y =>
      by_cases hcd : c = c' ∧ d = d' ∧ e.oper = y.oper
      · obtain ⟨rfl, rfl, hop⟩ := hcd
        obtain rfl : y = e := same (Waker.wakeOne_some hfound).1 hop
        exact .inr (.inl ⟨rfl, hfound⟩)
      · exact .inl ((Registry.mem_wakeOne hok hfound c d e).mpr ⟨he, hcd⟩)
  | _ => exact .inl he

theorem quiet_of_exec (hc : call.Quiet kind) (he : w.exec t kind call pr spurious = some (act, rep)) :
    w.Quiet kind t act := by
  have hexp := exec_explains he
  have unpaired : ∀ {c d offer}, ¬ call.Pairs kind c d offer := by
    rintro c d offer (rfl | ⟨hz, ⟨rfl, -⟩ | ⟨rfl, -⟩⟩)
    · exact hc
    · exact hc hz
    · exact hc hz
  cases act with
  | register c d slot =>
    refine ⟨rfl, rfl, ?_, fun _ _ _ _ h => (by cases h), fun _ _ _ _ _ h => (by cases h)⟩
    rintro c' d' e hz ⟨rfl, -⟩
    exact hexp.2.2.1.not_zero hz
  | offer c d slot =>
    obtain ⟨rfl, hz, -⟩ := hexp
    exact absurd hz hc
  | queue c d v => exact absurd hexp.1 unpaired
  | wakeOne c d =>
    refine ⟨rfl, rfl, fun _ _ _ _ he => he, ?_, fun _ _ _ _ _ h => (by cases h)⟩
    rintro c' d' e hz ⟨rfl, rfl⟩ he
    rcases hexp with ⟨rfl, -⟩ | ⟨offer, e', hpairs, -⟩
    · exact hc hz
    · exact unpaired hpairs
  | setPacket p v =>
    rcases hexp with ⟨msg, rfl, -⟩ | ⟨rfl, -⟩ | ⟨rfl, -⟩ <;> exact hc.elim
  | unregister c d slot =>
    refine ⟨rfl, rfl, fun _ _ _ _ he => he, fun _ _ _ _ h => (by cases h), ?_⟩
    rintro c' d' slot' e hz ⟨rfl, rfl, rfl⟩ -
    rcases hexp.1 with rfl | ⟨rfl, -⟩
    · exact hc hz
    · exact hc
  | _ =>
    exact ⟨rfl, rfl, fun _ _ _ _ he => he, fun _ _ _ _ h => (by cases h),
      fun _ _ _ _ _ h => (by cases h)⟩

theorem exec_pairs {c : Nat} {d : Side} {offer : Option (Packet T)}
    (hc : call.Pairs kind c d offer) (he : w.exec t kind call pr spurious = some (act, rep)) :
    w.pair t c d offer = (act, rep) := by
  rcases hc with rfl | ⟨hz, ⟨rfl, rfl⟩ | ⟨rfl, rfl⟩⟩
  · exact Option.some.inj he
  · simp only [exec, start, hz.eq] at he
    exact Option.some.inj he
  · simp only [exec, retry, hz.eq] at he
    exact Option.some.inj he

/-- What the section at the start of an operation comes to. -/
theorem pair_split {c : Nat} {d : Side} {offer : Option (Packet T)}
    (he : w.pair t c d offer = (act, rep)) :
    (∃ e, (w.reg.wakeOne c d.opposite t).1 = some e ∧ act = .wakeOne c d.opposite ∧
      rep = .ret (.token ((e.packet.map .packet).getD .null))) ∨
    (act = .silent ∧ (rep = .ret (.token .null) ∨ (offer = none ∧ rep = .ret .failed))) ∨
    ∃ v, offer = some v ∧ act = .queue c d v ∧ rep = .ret (.queued w.fresh) := by
  unfold pair at he
  split at he
  · rename_i e hfound
    obtain ⟨rfl, rfl⟩ := Prod.mk.inj he
    exact .inl ⟨e, hfound, rfl, rfl⟩
  · split at he
    · obtain ⟨rfl, rfl⟩ := Prod.mk.inj he
      exact .inr (.inl ⟨rfl, .inl rfl⟩)
    · split at he
      · obtain ⟨rfl, rfl⟩ := Prod.mk.inj he
        exact .inr (.inl ⟨rfl, .inr ⟨rfl, rfl⟩⟩)
      · obtain ⟨rfl, rfl⟩ := Prod.mk.inj he
        exact .inr (.inr ⟨_, rfl, rfl, rfl⟩)

end Shared

namespace Frame

variable {kind : Nat → Kind T} {f g : Frame Tid T} {pr pr' : Prog} {t : Tid} {n : Nat}
  {order : List Handle} {r : Ret Tid T} {D : Ledger Tid T}

omit [DecidableEq Tid] in
theorem onHandle_quiet {handles : List Handle} {i : Nat} {m : Handle → Call T}
    (hm : ∀ x, (m x).Quiet kind) : (onHandle handles i m).Quiet kind := by
  unfold onHandle
  split
  · exact hm _
  · trivial

omit [DecidableEq Tid] in
theorem onHandle_eq {handles : List Handle} {i : Nat} {m : Handle → Call T} {x : Handle}
    (hx : handles[i]? = some x) : onHandle handles i m = m x := by
  simp only [onHandle, hx]

omit [DecidableEq Tid] in
/-- A thread that is about to do nothing with a packet. -/
theorem grip_of_free (hh : ∀ p, ¬ g.Holds p) (hp : ¬ g.Pauses) (hz : ∀ job mode st, g ≠ .zero job mode st) :
    g.Grip D t n := by
  unfold Grip
  split
  · exact absurd rfl (hz _ _ _)
  · exact absurd rfl (hz _ _ _)
  · exact absurd rfl (hz _ _ _)
  · exact absurd rfl (hh _)
  · exact absurd rfl (hh _)
  · exact absurd rfl (hh _)
  · exact absurd rfl (hh _)
  · exact absurd rfl (hh _)
  · exact absurd rfl (hh _)
  · exact absurd rfl (hh _)
  · exact absurd trivial hp
  · trivial

theorem grip_of_select {handles : List Handle} {timeout : Timeout} {st : SelectStage Tid}
    (hr : (select handles timeout st).resume kind t order r = some g)
    (htk : ∀ p, r ≠ .token (.packet p))
    (hst : ∀ i p sel, st ≠ .again i (.withdraw p sel)) : g.Grip D t n := by
  by_cases hp : g.Pauses
  · obtain ⟨handles', timeout', i, rst, heq, hretry⟩ := pauses_of_resume hr hp
    cases heq
    unfold retryResume at hretry
    split at hretry
    all_goals first
      | exact absurd hp (choose_not_pauses hretry)
      | contradiction
      | (cases hretry
         first
           | trivial
           | exact absurd rfl (hst _ _ _)
           | exact absurd hp (nextHandle_not_pauses (fun _ => id) id))
  · refine grip_of_free (fun p hh => ?_) hp fun job mode zst hz => ?_
    · exact (resume_holds hr hh).elim id (htk p)
    · subst hz
      have hstays := resume_stays hr
      cases hstays

end Frame

namespace World

variable {kind : Nat → Kind T} {w w' : World Tid T} {t : Tid} {act : Act Tid T} {th : Thread Tid T}
  {count : Nat → Side → Nat} {D : Ledger Tid T}

/-- What a turn of thread `t`, which goes on at `g`, does about the packets. -/
inductive Deed (kind : Nat → Kind T) (w : World Tid T) (t : Tid) (act : Act Tid T) (g : Frame Tid T)
    (D : Ledger Tid T) : Ledger Tid T → Prop where
  | idle (hcall : (w.thread t).frame.call.move = (none : Option (Nat × Lib.Deal.Move (Party Tid) T)))
      (hq : w.shared.Quiet kind t act) : Deed kind w t act g D D
  | enter {pl : Place} {v : Packet T} (hz : (kind pl.chan).IsZero)
      (hreg : act = .offer pl.chan pl.side pl.slot ∧ v = .emptyOnHeap ∨
        act = .queue pl.chan pl.side v ∧ pl.slot = 0)
      (hstack : v.onStack = true → ∃ job mode, (w.thread t).frame = .zero job mode .pair ∧
        g = .zero job mode (.wait w.shared.fresh) ∧ job.chan = pl.chan ∧ job.side = pl.side ∧
          job.msg = v.msg) :
      Deed kind w t act g D (D.put w.shared.fresh (Accounts.offered w t pl v))
  | meet {c : Nat} {d : Side} {e : Entry Tid} {p : Nat} {x y : Lib.Deal (Party Tid) T}
      (hz : (kind c).IsZero) (hact : act = .wakeOne c d.opposite)
      (he : (w.shared.reg.wakeOne c d.opposite t).1 = some e) (hp : e.packet = some p)
      (hdeal : D p = some x) (hnext : x.next (.meet ⟨t, (w.thread t).ops, ⟨c, d, 0⟩⟩) = some y)
      (hcomes : (w.thread t).frame.Comes) (hcarry : ∀ msg, g.Carries p c d msg) :
      Deed kind w t act g D (D.put p y)
  /-- An offer is taken back. -/
  | back {c slot : Nat} {d : Side} {e : Entry Tid} {p : Nat} {x y : Lib.Deal (Party Tid) T}
      {mv : Lib.Deal.Move (Party Tid) T} (hz : (kind c).IsZero) (hact : act = .unregister c d slot)
      (he : (w.shared.reg.unregister c d ⟨t, slot⟩).1 = some e) (hp : e.packet = some p)
      (hdeal : D p = some x) (hnext : x.next mv = some y) (howner : x.owner.thread = t)
      (hcall : mv = .withdraw ∧ (w.thread t).frame.call = .withdraw c d ∨
        mv = .discard ∧ (w.thread t).frame.call = .unregister c d slot)
      (hrest : y.stage = .withdrawn → y.kept = true ∧ y.gives = false ∨ g.recalls = some p) :
      Deed kind w t act g D (D.put p y)
  | fill {p : Nat} {x y : Lib.Deal (Party Tid) T} {mv : Lib.Deal.Move (Party Tid) T}
      {a : Party Tid} (hf : (w.thread t).frame.touches = some p) (hdeal : D p = some x)
      (hnext : x.next mv = some y) (hactor : x.actor mv = some a) (ha : a.thread = t)
      (hst : x.stage ≠ .offered) (hact : act = .silent ∨ ∃ v, act = .setPacket p v)
      (hcall : (w.thread t).frame.call.move = some (p, mv)) :
      Deed kind w t act g D (D.put p y)

namespace Accounts

/-- The accounts can be kept through the step. -/
def Kept (kind : Nat → Kind T) (w : World Tid T) (t : Tid) (act : Act Tid T) (g : Frame Tid T)
    (D : Ledger Tid T) (w' : World Tid T) : Prop :=
  ∃ D', Deed kind w t act g D D' ∧ Accounts kind w' D'

theorem kept_idle (h : Accounts kind w D) (hx : Stepped kind w w' t act th count)
    (hcall : (w.thread t).frame.call.move = (none : Option (Nat × Lib.Deal.Move (Party Tid) T)))
    (hq : w.shared.Quiet kind t act)
    (hgrip : th.frame.Grip D t th.ops) : Kept kind w t act th.frame D w' :=
  ⟨D, .idle hcall hq, h.idle hx hq.packet hq.fresh hq.enters hq.wake hgrip⟩

/-- The call of this place has nothing to do with packets. -/
theorem kept_quiet (h : Accounts kind w D) (hx : Stepped kind w w' t act th count)
    {f : Frame Tid T} {pr : Prog} {spurious : Bool} {rep : Reply Tid T} (hf : (w.thread t).frame = f)
    (hquiet : f.call.Quiet kind) (he : w.shared.exec t kind f.call pr spurious = some (act, rep))
    (hgrip : th.frame.Grip D t th.ops) : Kept kind w t act th.frame D w' := by
  subst hf
  exact h.kept_idle hx hquiet.move (Shared.quiet_of_exec hquiet he) hgrip

/-- A thread comes to the packet of a partner. -/
theorem kept_meet (h : Accounts kind w D) (hx : Stepped kind w w' t act th count) {c : Nat}
    {d : Side} {e : Entry Tid} (hz : (kind c).IsZero)
    (he : (w.shared.reg.wakeOne c d.opposite t).1 = some e) (hact : act = .wakeOne c d.opposite)
    (hcomes : (w.thread t).frame.Comes)
    (hgrip : ∀ D' : Ledger Tid T, ∀ p, e.packet = some p → D'.Part t (w.thread t).ops p d →
      th.frame.Grip D' t th.ops)
    (hcarry : ∀ p, e.packet = some p → ∀ msg, th.frame.Carries p c d msg) :
    Kept kind w t act th.frame D w' := by
  obtain ⟨p, hp, x, hdeal, -, -, hplace, -, hst⟩ :=
    h.queued c d.opposite e hz (Waker.wakeOne_some he).1
  have hside := (h.shows p x hdeal).side
  rw [hplace] at hside
  have hnext : x.next (.meet ⟨t, (w.thread t).ops, ⟨c, d, 0⟩⟩) =
      some { x with
        partner := some ⟨t, (w.thread t).ops, ⟨c, d, 0⟩⟩
        stage := if x.prefilled then .take else .store } := by
    simp only [Lib.Deal.next, hst, if_true]
  refine ⟨_, .meet hz hact he hp hdeal hnext hcomes (hcarry p hp),
    h.meet hx hz hact he hp hdeal hnext rfl hst (hgrip _ p hp ?_)⟩
  cases d with
  | send =>
    have hg : x.gives = false := by
      cases hg : x.gives with
      | false => rfl
      | true => cases hside.mp hg
    exact ⟨_, _, Ledger.put_self, by simp only [Lib.Deal.giver, hg]; rfl, rfl, rfl,
      by simp [Lib.Deal.prefilled, hg]⟩
  | recv =>
    have hg : x.gives = true := hside.mpr rfl
    refine ⟨_, _, Ledger.put_self, by simp only [Lib.Deal.taker, hg]; rfl, rfl, rfl, fun _ => hg, ?_⟩
    cases hpre : x.prefilled with
    | true => exact .inl rfl
    | false => exact .inr ⟨hpre, .inl rfl⟩

omit [DecidableEq Tid] in
/-- The packet of a queued entry is on offer. -/
theorem offer_of_listed (h : Accounts kind w D) {c : Nat} {d : Side} {e : Entry Tid}
    (hz : (kind c).IsZero) (he : e ∈ (w.shared.reg.waker c d).entries) (howner : e.owner = t) :
    ∃ p x, e.packet = some p ∧ D p = some x ∧ x.owner.thread = t ∧ x.owner.op = (w.thread t).ops ∧
      (x.gives = true ↔ d = .send) ∧ x.kept = (w.thread t).frame.blocks ∧ x.stage = .offered := by
  obtain ⟨p, hp, x, hdeal, hthread, hop, hplace, hkept, hst⟩ := h.queued c d e hz he
  have hside := (h.shows p x hdeal).side
  rw [hplace] at hside
  subst howner
  exact ⟨p, x, hp, hdeal, hthread, hop, hside, hkept, hst⟩

omit [DecidableEq Tid] in
theorem found_unregister [DecidableEq Tid] {r : Registry Tid} {c : Nat} {d : Side} {op : Operation Tid}
    {e : Entry Tid} (he : (r.unregister c d op).1 = some e) :
    e ∈ (r.waker c d).entries ∧ e.oper = op :=
  ⟨List.mem_of_find?_eq_some he, by simpa using List.find?_some he⟩

/-- An operation of thread `t` that waits for an answer takes its offer back. -/
theorem kept_takeBack (h : Accounts kind w D) (hx : Stepped kind w w' t act th count) {c : Nat}
    {d : Side} {slot : Nat} {e : Entry Tid} (hz : (kind c).IsZero) (hact : act = .unregister c d slot)
    (he : (w.shared.reg.unregister c d ⟨t, slot⟩).1 = some e)
    (hcall : (w.thread t).frame.call = .withdraw c d)
    (hgrip : ∀ D' : Ledger Tid T, ∀ p, e.packet = some p → (D'.Owns t (w.thread t).ops p fun x =>
      (x.gives = true ↔ d = .send) ∧ x.kept = (w.thread t).frame.blocks ∧ x.stage = .withdrawn) →
      th.frame.Grip D' t th.ops)
    (hrest : ∀ p, e.packet = some p →
      (w.thread t).frame.blocks = true ∧ d = .recv ∨ th.frame.recalls = some p) :
    Kept kind w t act th.frame D w' := by
  obtain ⟨hmem, hoper⟩ := found_unregister he
  have howner : e.owner = t := congrArg Operation.thread hoper
  obtain ⟨p, x, hp, hdeal, hthread, hop, hside, hkept, hst⟩ := h.offer_of_listed hz hmem howner
  have hnext : x.next .withdraw = some { x with stage := .withdrawn } := by
    simp only [Lib.Deal.next, hst, if_true]
  have hm : D.Moves t p x { x with stage := .withdrawn } := ⟨hdeal, _, _, hnext, rfl, hthread⟩
  refine ⟨_, .back hz hact he hp hdeal hnext hthread (.inl ⟨rfl, hcall⟩) fun _ => ?_,
    h.takeBack hx hz (by rw [hact, hoper]) hmem howner hp hm hst
      ((h.shows p x hdeal).fits.withdraw hnext)
      (hgrip _ p hp ⟨_, Ledger.put_self, hthread, hop, hside, hkept, rfl⟩)⟩
  refine (hrest p hp).imp_left fun hempty => ⟨hkept.trans hempty.1, ?_⟩
  obtain rfl := hempty.2
  cases hg : x.gives with
  | false => rfl
  | true => cases hside.mp hg

/-- `run_select` unregisters an operation of a zero channel, and frees its packet. -/
theorem kept_discard (h : Accounts kind w D) (hx : Stepped kind w w' t act th count) {c : Nat}
    {d : Side} {slot : Nat} {e : Entry Tid} (hz : (kind c).IsZero) (hact : act = .unregister c d slot)
    (he : (w.shared.reg.unregister c d ⟨t, slot⟩).1 = some e)
    (hheap : (w.thread t).frame.blocks = false)
    (hcall : (w.thread t).frame.call = .unregister c d slot)
    (hgrip : ∀ D' : Ledger Tid T, th.frame.Grip D' t th.ops) : Kept kind w t act th.frame D w' := by
  obtain ⟨hmem, hoper⟩ := found_unregister he
  have howner : e.owner = t := congrArg Operation.thread hoper
  obtain ⟨p, x, hp, hdeal, hthread, hop, -, hkept, hst⟩ := h.offer_of_listed hz hmem howner
  have hnext : x.next .discard = some { x with stage := .over } := by
    simp only [Lib.Deal.next, hst, hkept, hheap, and_self, if_true]
  have hm : D.Moves t p x { x with stage := .over } := ⟨hdeal, _, _, hnext, rfl, hthread⟩
  exact ⟨_, .back hz hact he hp hdeal hnext hthread (.inr ⟨rfl, hcall⟩) (fun hno => by cases hno),
    h.takeBack hx hz (by rw [hact, hoper]) hmem howner hp hm hst
      (Lib.Deal.Fits.discard hnext) (hgrip _)⟩

/-- A thread outside `Context::with` makes its move about a packet. -/
theorem kept_fill (h : Accounts kind w D) (hx : Stepped kind w w' t act th count) {p : Nat}
    {x y : Lib.Deal (Party Tid) T} {mv : Lib.Deal.Move (Party Tid) T} {a : Party Tid} {v : Packet T}
    (hf : (w.thread t).frame.touches = some p) (hdeal : D p = some x) (hnext : x.next mv = some y)
    (hactor : x.actor mv = some a) (ha : a.thread = t) (hst : x.stage ≠ .offered)
    (hcalm : (w.thread t).frame.Calm kind) (hcall : (w.thread t).frame.call.move = some (p, mv))
    (hact : act = .setPacket p v) (hfits : y.Fits v.ready v.msg)
    (hstack : v.onStack = (w.shared.packet p).onStack)
    (hgrip : th.frame.Grip (D.put p y) t th.ops) : Kept kind w t act th.frame D w' := by
  have hm : D.Moves t p x y := ⟨hdeal, mv, a, hnext, hactor, ha⟩
  have hpacket : (w.shared.apply t act).packet p = v := by
    rw [hact]
    exact Function.update_self _ _ _
  exact ⟨_, .fill hf hdeal hnext hactor ha hst (.inr ⟨v, hact⟩) hcall,
    h.fill hx hm hst hcalm (.inr ⟨v, hact⟩) (by rwa [hpacket]) (by rwa [hpacket]) hgrip⟩

variable {f g : Frame Tid T} {pr pr' : Prog}

omit [DecidableEq Tid] in
theorem finishWith_grip (kind : Nat → Kind T) {job : Job T} {n p : Nat} (h : D.Part t n p job.side) :
    (Frame.finishWith kind job (.packet p) : Frame Tid T).Grip D t n := by
  simp only [Frame.finishWith]
  cases hside : job.side <;> rw [hside] at h <;> exact h

omit [DecidableEq Tid] in
theorem finishWith_carries (kind : Nat → Kind T) (p : Nat) (job : Job T) (msg : Option T) :
    (Frame.finishWith kind job (.packet p) : Frame Tid T).Carries p job.chan job.side msg := by
  simp only [Frame.finishWith]
  cases hside : job.side <;> exact ⟨rfl, rfl, hside, rfl⟩

omit [DecidableEq Tid] in
theorem finishWith_null_grip {job : Job T} {n : Nat} :
    (Frame.finishWith kind job .null : Frame Tid T).Grip D t n := by
  simp only [Frame.finishWith]
  split <;> trivial

omit [DecidableEq Tid] in
theorem unselected_grip (sel : Selected Tid) (msg : Option T) (n : Nat) :
    (Frame.unselected sel msg).Grip D t n := by
  unfold Frame.unselected
  split <;> trivial

omit [DecidableEq Tid] in
/-- Who has waited for an answer about its packet, and was selected, has a partner. -/
theorem waited (h : Accounts kind w D) (hs : Sound kind w) {job : Job T} {mode : Mode} {p : Nat}
    {op : Operation Tid} (hz : (kind job.chan).IsZero)
    (hf : (w.thread t).frame = .zero job mode (.wait p))
    (hsel : (w.shared.reg.cx t).select = .operation op) :
    (.zero job mode (.waitReady p) : Frame Tid T).Grip D t (w.thread t).ops := by
  have hin : (stakes kind w t).inside = true := by
    rw [stakes, hf]
    rfl
  obtain ⟨hthread, x, hmade, hslot⟩ := hs.books.hit t op hsel hin
  have hplace : x = ⟨job.chan, job.side, 0⟩ := by
    rw [stakes, hf] at hmade
    exact hmade
  have hop : op = x.oper t := by
    obtain ⟨u, s⟩ := op
    cases hthread
    cases hslot
    rfl
  obtain ⟨q, hq, y, hy, hu, hn, hpl, hkept, ho⟩ :=
    h.selected t x hmade (by rw [hplace]; exact hz) (by rw [hsel, hop])
  obtain rfl := Option.some.inj (hq.symm.trans (h.told t p op (by rw [hf]; rfl) hsel))
  have hside := (h.shows q y hy).side
  rw [hpl, hplace] at hside
  rw [hf] at hkept
  exact ⟨y, hy, hu, hn, hkept, hside, ho⟩

/-- `send` and `recv` of a zero channel. -/
theorem kept_zero (h : Accounts kind w D) {job : Job T} {mode : Mode} {st : ZeroStage Tid}
    (hx : Stepped kind w w' t act { w.thread t with frame := g, prog := pr' } count)
    (hf : (w.thread t).frame = .zero job mode st)
    (hn : Frame.Next kind w.shared t (.zero job mode st) pr act g pr') : Kept kind w t act g D w' := by
  have hz : (kind job.chan).IsZero := by
    have := hx.typed
    rw [hf] at this
    exact this
  have hgrip := h.grip t
  rw [hf] at hgrip
  cases st with
  | pair =>
    have hcall : (w.thread t).frame.call.move =
        (none : Option (Nat × Lib.Deal.Move (Party Tid) T)) := by
      rw [hf]
      rfl
    cases hn with
    | more he =>
      rcases Shared.pair_split (Option.some.inj he) with ⟨e, -, -, hrep⟩ | ⟨-, hrep | ⟨-, hrep⟩⟩ |
        ⟨v, -, -, hrep⟩ <;> cases hrep
    | ret he hr =>
      rcases Shared.pair_split (Option.some.inj he) with ⟨e, hfound, hact, hrep⟩ |
        ⟨rfl, hrep | ⟨-, hrep⟩⟩ | ⟨v, hv, hact, hrep⟩
      · cases hrep
        -- It has found a partner, and goes on with the packet of the partner.
        refine h.kept_meet hx hz hfound hact (by rw [hf]; trivial) (fun D' p hp hpart => ?_)
          fun p hp msg => ?_
        · rw [hp] at hr
          obtain rfl := Option.some.inj hr
          exact finishWith_grip kind hpart
        · rw [hp] at hr
          obtain rfl := Option.some.inj hr
          exact finishWith_carries kind p job msg
      · cases hrep
        cases hr
        exact h.kept_idle hx hcall Shared.quiet_silent finishWith_null_grip
      · cases hrep
        cases hr
        exact h.kept_idle hx hcall Shared.quiet_silent trivial
      · cases hrep
        cases hr
        cases mode with
        | nonblocking => cases hv
        -- Nobody waits on the other side: the packet is put up, and a deal begins.
        | blocking deadline =>
          cases hv
          refine ⟨_, ?_, h.enter hx ⟨job.chan, job.side, 0⟩ (.inr ⟨hact, rfl⟩) rfl ?_ rfl
            fun _ => trivial⟩
          · exact .enter hz (.inr ⟨hact, rfl⟩) fun _ => ⟨job, _, hf, rfl, rfl, rfl, rfl⟩
          · obtain ⟨c, msg⟩ := job
            cases msg <;> rfl
  | wait p =>
    cases hn with
    | more he => exact h.kept_quiet hx hf (by trivial) he trivial
    | ret he hr =>
      rename_i r
      refine h.kept_quiet hx hf (by trivial) he ?_
      cases r with
      | selected sel =>
        cases sel with
        | operation op =>
          cases hr
          have hsel := (Shared.waitUntil_selected he).1
          rw [Shared.cx_self hsel] at hsel
          exact h.waited hx.sound hz hf hsel
        | _ =>
          cases hr
          trivial
      | _ => cases hr
  | withdraw p sel =>
    obtain ⟨spurious, rep, he, hmore, hret⟩ := hn.exec
    obtain ⟨rfl, rfl⟩ := Prod.mk.inj (Option.some.inj he)
    obtain ⟨-, order, hr⟩ := hret _ rfl
    cases hfound : (w.shared.reg.unregister job.chan job.side ⟨t, 0⟩).1 with
    | none =>
      rw [hfound] at hr
      cases hr
      exact h.kept_idle hx (by rw [hf]; rfl) (Shared.quiet_unregister hfound) trivial
    | some e =>
      rw [hfound] at hr
      obtain ⟨hmem, hoper⟩ := found_unregister hfound
      have howner : e.owner = t := congrArg Operation.thread hoper
      have hpacket : e.packet = some p :=
        h.own job.chan job.side e p hmem (by rw [howner, hf]; rfl)
      simp only [Frame.resume, Frame.zeroResume] at hr
      obtain rfl := Option.some.inj hr
      refine h.kept_takeBack hx hz rfl hfound (by rw [hf]; rfl) (fun D' q hq hown => ?_) fun q hq => ?_
      · obtain rfl := Option.some.inj (hq.symm.trans hpacket)
        obtain ⟨x, hdeal, hthread, hop, hside, hkept, hst⟩ := hown
        rw [hf] at hkept
        cases hjob : job.side with
        | send =>
          exact ⟨x, hdeal, hthread, hop, by rw [Lib.Deal.prefilled, hside.mpr hjob, hkept]; rfl, hst⟩
        | recv => exact unselected_grip sel none _
      · obtain rfl := Option.some.inj (hq.symm.trans hpacket)
        cases hjob : job.side with
        | send => exact .inr rfl
        | recv => exact .inl ⟨by rw [hf]; rfl, rfl⟩
  | recover p sel =>
    obtain ⟨spurious, rep, he, hmore, hret⟩ := hn.exec
    obtain ⟨hact, rfl⟩ := Prod.mk.inj (Option.some.inj he)
    obtain ⟨-, order, hr⟩ := hret _ rfl
    obtain ⟨x, hdeal, hthread, -, hpre, hst⟩ := hgrip
    have hnext : x.next .take = some { x with stage := .over } := by
      simp [Lib.Deal.next, hst, hpre]
    refine h.kept_fill hx (by rw [hf]; rfl) hdeal hnext (a := x.owner)
      (by simp [Lib.Deal.actor, hst]) hthread (by simp [hst]) (by rw [hf]; exact fun _ => rfl)
      (by rw [hf]; rfl) hact.symm
      ((h.shows p x hdeal).fits.take hnext) rfl ?_
    simp only [Frame.resume] at hr
    cases hmsg : (w.shared.packet p).msg <;> rw [hmsg] at hr <;> cases hr
    · trivial
    · exact unselected_grip _ _ _
  | waitReady p =>
    cases hn with
    | more he => exact h.kept_quiet hx hf (by trivial) he hgrip
    | ret he hr =>
      refine h.kept_quiet hx hf (by trivial) he ?_
      obtain ⟨-, hrep⟩ := Prod.mk.inj (Option.some.inj he)
      cases hready : (w.shared.packet p).ready <;> rw [hready] at hrep <;> cases hrep
      obtain rfl := Option.some.inj hr
      obtain ⟨x, hdeal, hthread, hop, hkept, hside, ho⟩ := hgrip
      cases hjob : job.side with
      | send => trivial
      | recv =>
        have hg : x.gives = false := by
          cases hg : x.gives with
          | false => rfl
          | true => cases (hside.mp hg).symm.trans hjob
        have hfits := (h.shows p x hdeal).fits
        rw [hready] at hfits
        exact ⟨x, hdeal, hthread, hop, hg, hkept, hfits.published ho hg⟩
  | takeMsg p =>
    obtain ⟨spurious, rep, he, hmore, hret⟩ := hn.exec
    obtain ⟨hact, rfl⟩ := Prod.mk.inj (Option.some.inj he)
    obtain ⟨-, order, hr⟩ := hret _ rfl
    obtain ⟨x, hdeal, hthread, -, hg, hkept, hst⟩ := hgrip
    have hnext : x.next .take = some { x with stage := .over } := by
      simp [Lib.Deal.next, Lib.Deal.prefilled, hst, hg, hkept]
    refine h.kept_fill hx (by rw [hf]; rfl) hdeal hnext (a := x.owner)
      (by simp [Lib.Deal.actor, Lib.Deal.taker, hst, hg]) hthread (by simp [hst])
      (by rw [hf]; exact fun _ => rfl) (by rw [hf]; rfl) hact.symm
      ((h.shows p x hdeal).fits.take hnext) rfl ?_
    simp only [Frame.resume] at hr
    cases hmsg : (w.shared.packet p).msg <;> rw [hmsg] at hr <;> cases hr <;> trivial

/-- Completing an operation. -/
theorem kept_finish (h : Accounts kind w D) {job : Job T} {st : FinishStage T}
    (hx : Stepped kind w w' t act { w.thread t with frame := g, prog := pr' } count)
    (hf : (w.thread t).frame = .finish job st)
    (hn : Frame.Next kind w.shared t (.finish job st) pr act g pr') : Kept kind w t act g D w' := by
  have htyped := hx.typed
  have hgrip := h.grip t
  rw [hf] at htyped hgrip
  have hcalm : (w.thread t).frame.Calm kind := by
    rw [hf]
    exact fun _ => rfl
  cases st with
  | complete =>
    have hquiet : (Frame.finish job .complete : Frame Tid T).call.Quiet kind := by
      simp only [Frame.call, Frame.finishCall]
      split <;> trivial
    cases hn with
    | more he => exact h.kept_quiet hx hf hquiet he trivial
    | ret he hr =>
      refine h.kept_quiet hx hf hquiet he ?_
      simp only [Frame.resume] at hr
      unfold Frame.finishResume Frame.completed at hr
      repeat' split at hr
      all_goals first | contradiction | (cases hr; trivial)
  | wakeOne out =>
    have hquiet : (Frame.finish job (.wakeOne out) : Frame Tid T).call.Quiet kind :=
      Kind.Buffered.not_zero htyped
    cases hn with
    | more he => exact h.kept_quiet hx hf hquiet he trivial
    | ret he hr =>
      rename_i r
      refine h.kept_quiet hx hf hquiet he ?_
      cases r <;> cases hr
      trivial
  | storeMsg p =>
    obtain ⟨spurious, rep, he, hmore, hret⟩ := hn.exec
    obtain ⟨c, msg⟩ := job
    cases msg with
    | none => cases he
    | some m =>
      obtain ⟨hact, rfl⟩ := Prod.mk.inj (Option.some.inj he)
      obtain ⟨-, order, hr⟩ := hret _ rfl
      obtain ⟨x, q, hdeal, hgiver, hthread, hop, hst⟩ := hgrip
      have hnext : x.next (.store m) = some { x with msg := some m, stage := .publish } := by
        simp [Lib.Deal.next, hst]
      have hfits := (h.shows p x hdeal).fits
      refine h.kept_fill hx (by rw [hf]; rfl) hdeal hnext hgiver hthread (by simp [hst]) hcalm
        (by rw [hf]; rfl) hact.symm (hfits.store hnext) rfl ?_
      cases hr
      simp only [Lib.Deal.Fits, hst] at hfits
      exact .inl ⟨_, q, Ledger.put_self, hgiver, hthread, hop, hfits.2.2, rfl⟩
  | setReady p out =>
    obtain ⟨spurious, rep, he, hmore, hret⟩ := hn.exec
    obtain ⟨hact, rfl⟩ := Prod.mk.inj (Option.some.inj he)
    obtain ⟨-, order, hr⟩ := hret _ rfl
    obtain ⟨x, q, hdeal, hactor, hthread, hst⟩ : ∃ x q, D p = some x ∧
        x.actor .publish = some q ∧ q.thread = t ∧ x.stage = .publish := by
      rcases hgrip with ⟨x, q, hdeal, hgiver, hthread, -, hpre, hst⟩ |
        ⟨x, q, hdeal, htaker, hthread, -, hpre, hst⟩
      · exact ⟨x, q, hdeal, by simpa [Lib.Deal.actor, hpre] using hgiver, hthread, hst⟩
      · exact ⟨x, q, hdeal, by simpa [Lib.Deal.actor, hpre] using htaker, hthread, hst⟩
    have hnext : x.next .publish =
        some { x with stage := if x.prefilled then .over else .take } := by
      simp [Lib.Deal.next, hst]
    refine h.kept_fill hx (by rw [hf]; rfl) hdeal hnext hactor hthread (by simp [hst]) hcalm
      (by rw [hf]; rfl) hact.symm ((h.shows p x hdeal).fits.publish hnext) rfl ?_
    cases hr
    trivial
  | loadOnStack p =>
    obtain ⟨spurious, rep, he, hmore, hret⟩ := hn.exec
    refine h.kept_quiet hx hf (by trivial) he ?_
    obtain ⟨-, rfl⟩ := Prod.mk.inj (Option.some.inj he)
    obtain ⟨-, order, hr⟩ := hret _ rfl
    obtain ⟨x, q, hdeal, htaker, hthread, hop, ha⟩ := hgrip
    rw [(h.shows p x hdeal).kept] at hr
    cases hk : x.kept <;> rw [hk] at hr <;> cases hr
    · exact ⟨x, q, hdeal, htaker, hthread, hop, hk, ha⟩
    · exact ⟨x, q, hdeal, htaker, hthread, hop, hk, ha, ha.prefilled.2 hk⟩
  | waitReady p =>
    cases hn with
    | more he => exact h.kept_quiet hx hf (by trivial) he hgrip
    | ret he hr =>
      refine h.kept_quiet hx hf (by trivial) he ?_
      obtain ⟨-, hrep⟩ := Prod.mk.inj (Option.some.inj he)
      cases hready : (w.shared.packet p).ready <;> rw [hready] at hrep <;> cases hrep
      obtain rfl := Option.some.inj hr
      obtain ⟨x, q, hdeal, htaker, hthread, hop, hk, ha⟩ := hgrip
      have hfits := (h.shows p x hdeal).fits
      rw [hready] at hfits
      exact ⟨x, q, hdeal, htaker, hthread, hop, hk, ha, hfits.arrived ha⟩
  | takeMsg p onStack =>
    obtain ⟨spurious, rep, he, hmore, hret⟩ := hn.exec
    obtain ⟨hact, rfl⟩ := Prod.mk.inj (Option.some.inj he)
    obtain ⟨-, order, hr⟩ := hret _ rfl
    obtain ⟨x, q, hdeal, htaker, hthread, hop, hk, ha, hst⟩ := hgrip
    have hpre : x.prefilled = onStack := ha.prefilled.1.trans hk
    have hnext : x.next .take = some { x with stage := if onStack then .publish else .free } := by
      cases onStack <;> simp [Lib.Deal.next, hst, hpre, hk]
    refine h.kept_fill hx (by rw [hf]; rfl) hdeal hnext (by simpa [Lib.Deal.actor, hst] using htaker)
      hthread (by simp [hst]) hcalm (by rw [hf]; rfl) hact.symm
      ((h.shows p x hdeal).fits.take hnext) rfl ?_
    simp only [Frame.resume] at hr
    cases hmsg : (w.shared.packet p).msg <;> rw [hmsg] at hr <;> cases onStack <;> cases hr
    · trivial
    · trivial
    · exact ⟨_, q, Ledger.put_self, htaker, hthread, hop, rfl⟩
    · exact .inr ⟨_, q, Ledger.put_self, htaker, hthread, hop, hpre, rfl⟩
  | dropPacket p m =>
    obtain ⟨spurious, rep, he, hmore, hret⟩ := hn.exec
    obtain ⟨rfl, rfl⟩ := Prod.mk.inj (Option.some.inj he)
    obtain ⟨-, order, hr⟩ := hret _ rfl
    obtain ⟨x, q, hdeal, htaker, hthread, -, hst⟩ := hgrip
    have hnext : x.next .free = some { x with stage := .over } := by
      simp [Lib.Deal.next, hst]
    have hactor : x.actor .free = some q := by simpa [Lib.Deal.actor, hst] using htaker
    have hm : D.Moves t p x { x with stage := .over } := ⟨hdeal, _, q, hnext, hactor, hthread⟩
    refine ⟨_, .fill (by rw [hf]; rfl) hdeal hnext hactor hthread (by simp [hst]) (.inl rfl)
        (by rw [hf]; rfl), h.fill hx hm (by simp [hst]) hcalm (.inl rfl)
      (Lib.Deal.Fits.free hnext) rfl ?_⟩
    cases hr
    trivial

/-- `run_select` tries one of its handles. -/
theorem kept_try (h : Accounts kind w D) {handles : List Handle} {timeout : Timeout}
    {st : SelectStage Tid} {x : Handle} {offer : Option (Packet T)}
    (hx : Stepped kind w w' t act { w.thread t with frame := g, prog := pr' } count)
    (hn : Frame.Next kind w.shared t (.select handles timeout st) pr act g pr')
    (hcall : ((Frame.select handles timeout st : Frame Tid T).call = .start x.chan x.side ∧
        offer = none) ∨
      ((Frame.select handles timeout st : Frame Tid T).call = .retry x.chan x.side ∧
        offer = some .emptyOnHeap))
    (hchoose : ∀ order tk, (Frame.select handles timeout st).resume kind t order (.token tk) = some g →
      g = .chosen x tk)
    (hf : (w.thread t).frame = .select handles timeout st)
    (hcomes : (Frame.select handles timeout st : Frame Tid T).Comes)
    (hst : ¬ (Frame.select handles timeout st : Frame Tid T).Pauses) : Kept kind w t act g D w' := by
  have hmove : (w.thread t).frame.call.move =
      (none : Option (Nat × Lib.Deal.Move (Party Tid) T)) := by
    rw [hf]
    rcases hcall with ⟨hcall, -⟩ | ⟨hcall, -⟩ <;> rw [hcall] <;> rfl
  have hother : ∀ i p sel, st ≠ .again i (.withdraw p sel) := by
    rintro i p sel rfl
    exact hst trivial
  have hblocks : g.blocks = false := by
    have hstays := hn.stays
    cases hstays <;> rfl
  by_cases hz : (kind x.chan).IsZero
  · have hpairs : (Frame.select handles timeout st : Frame Tid T).call.Pairs kind x.chan x.side offer :=
      .inr ⟨hz, hcall⟩
    cases hn with
    | more he =>
      rcases Shared.pair_split (Shared.exec_pairs hpairs he) with
        ⟨e, -, -, hrep⟩ | ⟨-, hrep | ⟨-, hrep⟩⟩ | ⟨v, -, -, hrep⟩ <;> cases hrep
    | ret he hr =>
      rcases Shared.pair_split (Shared.exec_pairs hpairs he) with ⟨e, hfound, hact, hrep⟩ |
        ⟨rfl, hrep | ⟨-, hrep⟩⟩ | ⟨v, hv, hact, hrep⟩
      · cases hrep
        refine h.kept_meet hx hz hfound hact (hf ▸ hcomes) (fun D' p hp hpart => ?_) fun p hp msg => ?_
        · rw [hp] at hr
          rw [hchoose _ _ hr]
          exact hpart
        · rw [hp] at hr
          dsimp only
          rw [hchoose _ _ hr]
          exact ⟨rfl, rfl, rfl⟩
      · cases hrep
        rw [hchoose _ _ hr] at hx ⊢
        exact h.kept_idle hx hmove Shared.quiet_silent trivial
      · cases hrep
        exact h.kept_idle hx hmove Shared.quiet_silent
          (Frame.grip_of_select hr (fun p hp => by cases hp) hother)
      · cases hrep
        obtain rfl : v = .emptyOnHeap := by
          rcases hcall with ⟨-, rfl⟩ | ⟨-, rfl⟩ <;> cases hv
          rfl
        refine ⟨_, ?_, h.enter hx ⟨x.chan, x.side, 0⟩ (.inr ⟨hact, rfl⟩) rfl
          (by simp [Packet.emptyOnHeap]) hblocks.symm fun D' => ?_⟩
        · exact .enter hz (.inr ⟨hact, rfl⟩) fun hno => by cases hno
        · exact Frame.grip_of_select hr (fun p hp => by cases hp) hother
  · have hquiet : (Frame.select handles timeout st : Frame Tid T).call.Quiet kind := by
      rcases hcall with ⟨hcall, -⟩ | ⟨hcall, -⟩ <;> rw [hcall] <;> exact hz
    cases hn with
    | more he =>
      refine h.kept_quiet hx hf hquiet he (Frame.grip_of_free (fun _ => id) hst ?_)
      rintro _ _ _ hf
      cases hf
    | ret he hr =>
      refine h.kept_quiet hx hf hquiet he (Frame.grip_of_select hr ?_ hother)
      rintro p rfl
      rcases hcall with ⟨hcall, -⟩ | ⟨hcall, -⟩ <;> rw [hcall] at he
      · exact hz (Shared.start_token he)
      · exact hz (Shared.retry_token he)

omit [DecidableEq Tid] in
/-- Who goes on with the packet of an operation that was selected has a part in its deal. -/
theorem part_of_selected (h : Accounts kind w D) {pl : Place} {p : Nat}
    (hown : D.Owns t (w.thread t).ops p fun y => y.owner.place = pl ∧ y.kept = false ∧ y.Open) :
    D.Part t (w.thread t).ops p pl.side := by
  obtain ⟨y, hdeal, hthread, hop, hpl, hkept, -, ho⟩ := hown
  have hside := (h.shows p y hdeal).side
  rw [hpl] at hside
  cases hd : pl.side with
  | send =>
    have hg := hside.mpr hd
    simp only [hg, hkept] at ho
    exact ⟨y, y.owner, hdeal, by simp [Lib.Deal.giver, hg], hthread, hop, ho⟩
  | recv =>
    have hg : y.gives = false := by
      cases hg : y.gives with
      | false => rfl
      | true => cases (hside.mp hg).symm.trans hd
    have hpre : y.prefilled = false := by rw [Lib.Deal.prefilled, hg]; rfl
    simp only [hg] at ho
    refine ⟨y, y.owner, hdeal, by simp [Lib.Deal.taker, hg], hthread, hop, ?_, ?_⟩
    · rw [hkept]
      exact fun hno => by cases hno
    · rcases ho with ho | ho | ho
      · exact .inr ⟨hpre, .inl ho⟩
      · exact .inr ⟨hpre, .inr ho⟩
      · exact .inl ho

/-- `run_select` waits for the packet of the operation that was selected. -/
theorem kept_accept (h : Accounts kind w D) {handles : List Handle} {timeout : Timeout}
    {st : SelectStage Tid}
    (hx : Stepped kind w w' t act { w.thread t with frame := g, prog := pr' } count)
    (hf : (w.thread t).frame = .select handles timeout st)
    (hn : Frame.Next kind w.shared t (.select handles timeout st) (w.thread t).prog act g pr')
    (hst : ∃ i, st = .accept i ∨ st = .again i .packet) : Kept kind w t act g D w' := by
  have hother : ∀ i p sel, st ≠ .again i (.withdraw p sel) := by
    rintro i p sel rfl
    obtain ⟨j, hst | hst⟩ := hst <;> cases hst
  have hquiet : (Frame.select handles timeout st : Frame Tid T).call.Quiet kind := by
    obtain ⟨i, rfl | rfl⟩ := hst
    · exact Frame.onHandle_quiet fun _ => trivial
    · trivial
  have htyped := hx.typed
  have hknows := hx.aware.knows t
  have hrelies := hx.aware.relies t
  rw [hf] at htyped hknows hrelies
  cases hn with
  | more he =>
    refine h.kept_quiet hx hf hquiet he ?_
    obtain ⟨i, rfl | rfl⟩ := hst <;> trivial
  | ret he hr =>
    rename_i spurious order r
    refine h.kept_quiet hx hf hquiet he ?_
    by_cases htk : ∃ p, r = .token (.packet p)
    · obtain ⟨p, rfl⟩ := htk
      -- The operation that was selected is one of a zero channel.
      have hin : (stakes kind w t).inside = true := by
        rw [stakes, hf]
        obtain ⟨i, rfl | rfl⟩ := hst <;> rfl
      obtain ⟨op, hsel, y, hslot, hmade, hz⟩ : ∃ op, (w.shared.reg.cx t).select = .operation op ∧
          ∃ y : Place, y.slot = op.slot ∧ (stakes kind w t).made y ∧ (kind y.chan).IsZero := by
        obtain ⟨i, rfl | rfl⟩ := hst
        · obtain ⟨-, y, hmade, hslot⟩ := hx.sound.books.hit t _ hknows hin
          refine ⟨_, hknows, y, hslot, hmade, ?_⟩
          obtain ⟨x, hxi, hexec⟩ := Frame.onHandle_exec he
          have hzero : (kind x.chan).IsZero := Shared.accept_token hexec
          rw [stakes, hf] at hmade
          obtain ⟨j, hd, -, hj, -, rfl⟩ := hmade
          obtain rfl : j = i := Nat.succ.inj hslot
          obtain rfl := Option.some.inj (hxi.symm.trans hj)
          exact hzero
        · obtain ⟨op, hsel⟩ := hrelies
          obtain ⟨-, y, hmade, hslot⟩ := hx.sound.books.hit t op hsel hin
          refine ⟨op, hsel, y, hslot, hmade, ?_⟩
          obtain ⟨x, hxi, hzero⟩ := htyped
          rw [stakes, hf] at hmade
          obtain ⟨z, hzi, rfl⟩ := hmade
          obtain rfl := Option.some.inj (hxi.symm.trans hzi)
          exact hzero
      have hsel' : (w.shared.reg.cx t).select = .operation (y.oper t) := by
        rw [hsel]
        obtain ⟨hthread, -⟩ := hx.sound.books.hit t op hsel hin
        obtain ⟨u, s⟩ := op
        cases hthread
        cases hslot
        rfl
      obtain ⟨q, hq, hown⟩ := h.selected t y hmade hz hsel'
      rw [stakes, hf] at hmade
      rw [hf] at hown
      rcases (Frame.Next.ret he hr).awaits_select hknows hsel' hmade with hg | ⟨-, hpacket⟩
      · have hcalm : g.Calm kind := by
          obtain ⟨i, rfl | rfl⟩ := hst <;> exact Frame.choose_calm hr
        rw [hcalm] at hg
        cases hg
      · obtain ⟨q', x, hq', rfl, -, hside⟩ := hpacket hz
        obtain rfl := Option.some.inj (hq.symm.trans hq')
        have hpart := h.part_of_selected hown
        rwa [← hside] at hpart
    · exact Frame.grip_of_select hr (fun p hp => htk ⟨p, hp⟩) hother

/-- The rest of `run_select`. -/
theorem kept_select (h : Accounts kind w D) {handles : List Handle} {timeout : Timeout}
    {st : SelectStage Tid}
    (hx : Stepped kind w w' t act { w.thread t with frame := g, prog := pr' } count)
    (hf : (w.thread t).frame = .select handles timeout st)
    (hn : Frame.Next kind w.shared t (.select handles timeout st) (w.thread t).prog act g pr') :
    Kept kind w t act g D w' := by
  have hgrip := h.grip t
  rw [hf] at hgrip
  -- A stage that has nothing to do with packets.
  have quiet : (Frame.select handles timeout st : Frame Tid T).call.Quiet kind →
      (∀ i p sel, st ≠ .again i (.withdraw p sel)) →
      (∀ r order g, (Frame.select handles timeout st).resume kind t order r = some g →
        ∀ p : Nat, r ≠ .token (.packet p)) → Kept kind w t act g D w' := by
    intro hquiet hother htk
    cases hn with
    | more he => exact h.kept_quiet hx hf hquiet he hgrip
    | ret he hr =>
      exact h.kept_quiet hx hf hquiet he (Frame.grip_of_select hr (htk _ _ _ hr) hother)
  obtain ⟨spurious, rep, he, -, hret⟩ := hn.exec
  cases st with
  | attempt i | probe i states =>
    obtain ⟨x, hxi, -⟩ := Frame.onHandle_exec he
    refine h.kept_try (x := x) hx hn (.inl ⟨Frame.onHandle_eq hxi, rfl⟩) (fun order tk hr => ?_) hf
      trivial id
    obtain ⟨y, hy, rfl⟩ := Frame.choose_eq hr
    rw [Option.some.inj (hxi.symm.trans hy)]
  | again i rst =>
    cases rst with
    | first =>
      obtain ⟨x, hxi, -⟩ := Frame.onHandle_exec he
      refine h.kept_try (x := x) hx hn (.inr ⟨Frame.onHandle_eq hxi, rfl⟩) (fun order tk hr => ?_) hf
        trivial id
      obtain ⟨y, hy, rfl⟩ := Frame.choose_eq hr
      rw [Option.some.inj (hxi.symm.trans hy)]
    | pause p =>
      refine quiet trivial (fun _ _ _ hst => by cases hst) ?_
      rintro r order g hr q rfl
      cases hr
    | withdraw p sel =>
      obtain ⟨x, hxi, hexec⟩ := Frame.onHandle_exec he
      obtain ⟨rfl, rfl⟩ := Prod.mk.inj (Option.some.inj hexec)
      obtain ⟨-, order, hr⟩ := hret _ rfl
      have hz : (kind x.chan).IsZero := by
        have htyped := hx.typed
        rw [hf] at htyped
        obtain ⟨y, hyi, hz⟩ := htyped
        rwa [Option.some.inj (hxi.symm.trans hyi)]
      have hcall : (Frame.select handles timeout (.again i (.withdraw p sel)) : Frame Tid T).call =
          .withdraw x.chan x.side := Frame.onHandle_eq hxi
      cases hfound : (w.shared.reg.unregister x.chan x.side ⟨t, 0⟩).1 with
      | none =>
        rw [hfound] at hr
        cases hr
        exact h.kept_idle hx (by rw [hf, hcall]; rfl) (Shared.quiet_unregister hfound) trivial
      | some e =>
        rw [hfound] at hr
        cases hr
        obtain ⟨hmem, hoper⟩ := found_unregister hfound
        have howner : e.owner = t := congrArg Operation.thread hoper
        have hpacket : e.packet = some p := h.own x.chan x.side e p hmem (by rw [howner, hf]; rfl)
        refine h.kept_takeBack hx hz rfl hfound (by rw [hf, hcall])
          (fun D' q hq hown => ?_) fun q hq => ?_
        · obtain rfl := Option.some.inj (hq.symm.trans hpacket)
          obtain ⟨y, hdeal, hthread, hop, -, hkept, hst⟩ := hown
          rw [hf] at hkept
          exact ⟨y, hdeal, hthread, hop, hkept, hst⟩
        · exact .inr (hpacket.symm.trans hq)
    | dropPacket p sel =>
      obtain ⟨rfl, rfl⟩ := Prod.mk.inj (Option.some.inj he)
      obtain ⟨-, order, hr⟩ := hret _ rfl
      obtain ⟨x, hdeal, hthread, -, hkept, hst⟩ := hgrip
      have hnext : x.next .free = some { x with stage := .over } := by
        simp [Lib.Deal.next, hst, hkept]
      have hactor : x.actor .free = some x.owner := by simp [Lib.Deal.actor, hst]
      have hm : D.Moves t p x { x with stage := .over } := ⟨hdeal, _, x.owner, hnext, hactor, hthread⟩
      exact ⟨_, .fill (by rw [hf]; rfl) hdeal hnext hactor hthread (by simp [hst]) (.inl rfl)
          (by rw [hf]; rfl),
        h.fill hx hm (by simp [hst]) (by rw [hf]; exact fun _ => rfl) (.inl rfl)
        (Lib.Deal.Fits.free hnext) rfl
        (Frame.grip_of_select hr (fun _ hq => by cases hq) fun _ _ _ hst => by cases hst)⟩
    | packet => exact h.kept_accept hx hf hn ⟨i, .inr rfl⟩
  | register i =>
    obtain ⟨x, hxi, hexec⟩ := Frame.onHandle_exec he
    by_cases hz : (kind x.chan).IsZero
    · simp only [Shared.exec, Shared.register, hz.eq] at hexec
      split at hexec
      · obtain ⟨hact, rfl⟩ := Prod.mk.inj (Option.some.inj hexec)
        obtain ⟨-, order, hr⟩ := hret _ rfl
        have hblocks : g.blocks = false := by
          have hstays := hn.stays
          cases hstays <;> rfl
        refine ⟨_, ?_, h.enter hx ⟨x.chan, x.side, i + 1⟩ (.inl ⟨hact.symm, rfl⟩) rfl
          (by simp [Packet.emptyOnHeap]) hblocks.symm fun D' =>
            Frame.grip_of_select hr (fun _ hq => by cases hq) fun _ _ _ hst => by cases hst⟩
        exact .enter hz (.inl ⟨hact.symm, rfl⟩) fun hno => by cases hno
      · cases hexec
    · refine quiet ?_ (fun _ _ _ hst => by cases hst) ?_
      · simp only [Frame.call, Frame.selectCall, Frame.onHandle_eq hxi]
        exact hz
      · rintro r order g hr q rfl
        cases hr
  | unregister i count sel =>
    obtain ⟨x, hxi, hexec⟩ := Frame.onHandle_exec he
    have hcall : (Frame.select handles timeout (.unregister i count sel) : Frame Tid T).call =
        .unregister x.chan x.side (i + 1) := Frame.onHandle_eq hxi
    by_cases hz : (kind x.chan).IsZero
    · simp only [Shared.exec, Shared.unregister, hz.eq] at hexec
      obtain ⟨hact, rfl⟩ := Prod.mk.inj (Option.some.inj hexec)
      obtain ⟨-, order, hr⟩ := hret _ rfl
      have hg : ∀ D', g.Grip D' t (w.thread t).ops := fun D' =>
        Frame.grip_of_select hr (fun _ hq => by cases hq) fun _ _ _ hst => by cases hst
      cases hfound : (w.shared.reg.unregister x.chan x.side ⟨t, i + 1⟩).1 with
      | none =>
        exact h.kept_idle hx (by rw [hf, hcall]; rfl) (hact ▸ Shared.quiet_unregister hfound) (hg D)
      | some e =>
        exact h.kept_discard hx hz hact.symm hfound (by rw [hf]; rfl) (by rw [hf, hcall]) hg
    · refine quiet (by rw [hcall]; exact hz) (fun _ _ _ hst => by cases hst) ?_
      rintro r order g hr q rfl
      cases hr
  | accept i => exact h.kept_accept hx hf hn ⟨i, .inl rfl⟩
  | deadline i | snapshot i | recheck i =>
    refine quiet (Frame.onHandle_quiet fun _ => trivial) (fun _ _ _ hst => by cases hst) ?_
    rintro r order g hr q rfl
    cases hr
  | _ =>
    refine quiet trivial (fun _ _ _ hst => by cases hst) ?_
    rintro r order g hr q rfl
    cases hr

/-- The bodies that never hold a packet. -/
theorem kept_rest (h : Accounts kind w D) {f : Frame Tid T}
    (hx : Stepped kind w w' t act { w.thread t with frame := g, prog := pr' } count)
    (hf : (w.thread t).frame = f)
    (hn : Frame.Next kind w.shared t f pr act g pr') (hquiet : f.call.Quiet kind)
    (hg : ∀ D n, g.Grip D t n) : Kept kind w t act g D w' := by
  obtain ⟨spurious, rep, he, -⟩ := hn.exec
  exact h.kept_quiet hx hf hquiet he (hg _ _)

theorem kept_next (h : Accounts kind w D)
    (hx : Stepped kind w w' t act { w.thread t with frame := g, prog := pr' } count)
    (hn : Frame.Next kind w.shared t (w.thread t).frame (w.thread t).prog act g pr') :
    Kept kind w t act g D w' := by
  have htyped := hx.typed
  cases hf : (w.thread t).frame with
  | zero job mode st => exact h.kept_zero hx hf (hf ▸ hn)
  | finish job st => exact h.kept_finish hx hf (hf ▸ hn)
  | select handles timeout st => exact h.kept_select hx hf (hf ▸ hn)
  | plain job mode st =>
    rw [hf] at hn htyped
    refine h.kept_rest hx hf hn ?_ fun D n => ?_
    · cases st <;> first | trivial | exact htyped.not_zero
    · have htyped' := hn.typed htyped
      have hstays := hn.stays
      cases hstays with
      | plainFinish =>
        rename_i st
        cases st <;> first | trivial | exact absurd htyped' htyped.not_zero
      | _ => trivial
  | timer c mode =>
    rw [hf] at hn htyped
    refine h.kept_rest hx hf hn ?_ fun D n => ?_
    · cases mode
      · exact htyped.2
      · trivial
    · have hstays := hn.stays
      cases hstays <;> trivial
  | close c d st =>
    rw [hf] at hn
    refine h.kept_rest hx hf hn ?_ fun D n => ?_
    · cases st <;> trivial
    · have hstays := hn.stays
      cases hstays <;> trivial
  | done out | chosen x tk | panicked =>
    rw [hf] at hn
    obtain ⟨spurious, rep, he, -⟩ := hn.exec
    cases he

/-- **The accounts can be kept through every turn.** -/
theorem kept (h : Accounts kind w D) (hx : Stepped kind w w' t act th count) :
    Kept kind w t act th.frame D w' := by
  have hgrip := h.grip t
  have ⟨_, _, _, _, ht, _⟩ := hx
  cases ht with
  | next hn => exact h.kept_next hx hn
  | start hover huses =>
    refine h.kept_idle hx (by rw [call_of_ended hover]; rfl) Shared.quiet_silent ?_
    unfold Op.frame Frame.nowStart Frame.loopStart
    repeat' split
    all_goals trivial
  | complete hframe hside =>
    refine h.kept_idle hx (by rw [hframe]; rfl) Shared.quiet_silent ?_
    rename_i tk _ _
    rw [hframe] at hgrip
    cases tk with
    | packet p => exact finishWith_grip kind (hside.symm ▸ hgrip)
    | null => exact finishWith_null_grip
    | slot | instant i => trivial
  | drop hover hpos hfree =>
    refine h.kept_idle hx (by rw [call_of_ended hover]; rfl) Shared.quiet_silent ?_
    unfold lastDropped
    repeat' split
    all_goals trivial

end Accounts

/-- **In every run the packets go through handovers.** -/
theorem accounts_of_reachable (h : (system kind).Reachable w) : ∃ D, Accounts kind w D := by
  refine h.invariant (P := fun w => ∃ D, Accounts kind w D) ?_ fun w l w' hr ⟨D, hD⟩ hs => ?_
  · rintro _ rfl
    exact ⟨fun _ => none, fun p x hx => (by cases hx), fun c d e _ he => absurd he List.not_mem_nil,
      fun c d e q he _ => absurd he List.not_mem_nil, fun t p op hp _ => (by cases hp),
      fun t x hmade _ _ => hmade.elim, fun t => trivial⟩
  · rcases step_cases hs with ⟨t, act, th, count, ht, ha⟩ | ⟨c, d, -, rfl⟩ | ⟨now, -, rfl⟩
    · obtain ⟨D', -, h'⟩ := hD.kept ⟨sound_of_reachable hr, sound_of_reachable (hr.step hs),
        aware_of_reachable hr, typed_of_reachable hr t, ht, ha⟩
      exact ⟨D', h'⟩
    · exact ⟨D, hD.shows, hD.queued, hD.own, hD.told, hD.selected, hD.grip⟩
    · exact ⟨D, fun p x hx => ⟨(hD.shows p x hx).born, (hD.shows p x hx).side, (hD.shows p x hx).fits,
        (hD.shows p x hx).kept⟩, hD.queued, hD.own, hD.told, hD.selected, hD.grip⟩

end World

end CrossbeamChannel
