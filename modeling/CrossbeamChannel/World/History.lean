import CrossbeamChannel.World.Engagements

/-!
# What happens at the channels

The history of a run lists what the operations do about messages, packets and positions, in the order
in which it happens: `World.history`. An operation is named by its thread and its number.

The history is read off the steps of the machine and has no influence on them, so every run has one. An
event stands for an access of the source that all threads could agree on: `take` for the successful
compare-and-swap of `head` or `tail` (`array.rs` 236 and 306, `list.rs` 200 and 315), `pair` for the
`try_select` in `wake_one` that selects an operation of a zero channel, `fire` for the swap or the tick of
a timer, and `offer`, `fill`, `look`, `empty`, `setReady` and `free` for the accesses to a packet. `ask`
and `over` frame an operation. So what a caller can see, and the instants in between, are statements
about one list.
-/

namespace CrossbeamChannel

variable {Tid T : Type} [DecidableEq Tid]

/-- What an operation does. -/
inductive Event (Tid T : Type) where
  /-- It is this send or receive. A select is one from its completion on. -/
  | ask (a : Ident Tid) (job : Job T)
  /-- It returns. -/
  | over (a : Ident Tid) (out : Outcome T)
  /-- It puts a new packet up, with this in it. -/
  | offer (a : Ident Tid) (p : Nat) (v : Packet T)
  /-- The two pair up at this channel: one of them selects the other, which waits with the packet. -/
  | pair (sender receiver : Ident Tid) (c p : Nat)
  | fill (a : Ident Tid) (p : Nat) (msg : T)
  | setReady (a : Ident Tid) (p : Nat)
  /-- It reads a flag of the packet. -/
  | look (a : Ident Tid) (p : Nat)
  | empty (a : Ident Tid) (p : Nat)
  | free (a : Ident Tid) (p : Nat)
  /-- Its CAS moves the tail or the head of a buffered channel past this position. -/
  | take (a : Ident Tid) (c : Nat) (d : Side) (k : Nat)
  /-- It receives the message of an `after` or `tick` channel. -/
  | fire (a : Ident Tid) (c : Nat)
  /-- It is a select over these handles. -/
  | among (a : Ident Tid) (handles : List Handle)

namespace Event

/-- The event is about an operation as a whole. -/
inductive Said : Event Tid T → Prop where
  | asks (a : Ident Tid) (job : Job T) : Said (.ask a job)
  | picks (a : Ident Tid) (handles : List Handle) : Said (.among a handles)
  | ends (a : Ident Tid) (out : Outcome T) : Said (.over a out)

/-- Who works on the packet itself, and which it is. -/
def touch : Event Tid T → Option (Ident Tid × Nat)
  | .fill a p _ | .setReady a p | .look a p | .empty a p | .free a p => some (a, p)
  | _ => none

/-- The event leaves this mark on the packet. -/
def marks (p : Nat) (k : Lib.Deal.Mark) : Event Tid T → Bool
  | .offer _ q v => q = p && k = .filled && v.msg.isSome
  | .pair _ _ _ q => q = p && k = .met
  | .fill _ q _ => q = p && k = .filled
  | .setReady _ q => q = p && k = .shown
  | .empty _ q => q = p && k = .emptied
  | .free _ q => q = p && k = .freed
  | _ => false

end Event

namespace World

/-- The present operation of thread `t`. -/
def ident (w : World Tid T) (t : Tid) : Ident Tid := ⟨t, (w.thread t).ops⟩

/-- An operation has begun, and has not returned. -/
def Running (w : World Tid T) (a : Ident Tid) : Prop :=
  (w.thread a.thread).ops = a.op ∧ (w.thread a.thread).frame.ended = false

/-- Thread `t` selects the operation of this entry, from the queue of side `d` of channel `c`. -/
def paired (w : World Tid T) (t : Tid) (c : Nat) (d : Side) (e : Entry Tid) : List (Event Tid T) :=
  match e.packet, d with
  | some p, .recv => [.pair (w.ident t) (w.ident e.owner) c p]
  | some p, .send => [.pair (w.ident e.owner) (w.ident t) c p]
  | none, _ => []

/-- `unregister` frees the packet of the entry it has found. -/
def dropped (w : World Tid T) (t : Tid) (e : Option (Entry Tid)) : List (Event Tid T) :=
  match e.bind Entry.packet with
  | some p => [.free (w.ident t) p]
  | none => []

/-- The positions thread `t` takes in a step after which channel `c` is `b`. -/
def taken (w : World Tid T) (t : Tid) (c : Nat) (b : Buffer Tid T) : List (Event Tid T) :=
  let v := (w.shared.buffer c).view
  (if v.sends < b.view.sends then [.take (w.ident t) c .send v.sends] else []) ++
    if v.recvs < b.view.recvs then [.take (w.ident t) c .recv v.recvs] else []

/-- What a step of thread `t` does about packets, positions and the messages of timers. -/
def deeds (kind : Nat → Kind T) (w : World Tid T) (t : Tid) : Act Tid T → List (Event Tid T)
  | .offer _ _ _ => [.offer (w.ident t) w.shared.fresh .emptyOnHeap]
  | .queue _ _ v => [.offer (w.ident t) w.shared.fresh v]
  -- No other step of a buffered channel moves a position.
  | .drive c _ b _ => w.taken t c b
  | .wakeOne c d =>
      match kind c, (w.shared.reg.wakeOne c d t).1 with
      | .zero, some e => w.paired t c d e
      | _, _ => []
  | .unregister c d slot =>
      match kind c, (w.thread t).frame.call with
      | .zero, .unregister _ _ _ => w.dropped t (w.shared.reg.unregister c d ⟨t, slot⟩).1
      | _, _ => []
  -- Who finds the flag set has lost the message to somebody else.
  | .setReceived c => if w.shared.received c then [] else [.fire (w.ident t) c]
  | .takeTick c _ => [.fire (w.ident t) c]
  | _ =>
      match (w.thread t).frame.call with
      | .storeMsg p msg => [.fill (w.ident t) p msg]
      | .setReady p => [.setReady (w.ident t) p]
      | .loadOnStack p | .waitReady p => [.look (w.ident t) p]
      | .takeMsg p => [.empty (w.ident t) p]
      | .dropPacket p => [.free (w.ident t) p]
      | _ => []

/-- What thread `t` has been asked for. -/
def asked (w : World Tid T) (t : Tid) : List (Event Tid T) :=
  match (w.thread t).job, (w.thread t).frame with
  | some job, _ => [.ask (w.ident t) job]
  | none, .select handles _ _ => [.among (w.ident t) handles]
  | none, _ => []

/-- The operation of thread `t` has returned. -/
def returned (w : World Tid T) (t : Tid) : List (Event Tid T) :=
  match (w.thread t).frame with
  | .done out => [.over (w.ident t) out]
  | _ => []

/-- What happens in a step from `w` to `w'`. -/
def events (kind : Nat → Kind T) (w : World Tid T) (l : Label Tid T) (w' : World Tid T) :
    List (Event Tid T) :=
  match l, l.thread with
  | .run _ spurious _, some t =>
      match w.shared.exec t kind (w.thread t).frame.call (w.thread t).prog spurious with
      | some (act, _) => w.deeds kind t act ++ w'.returned t
      | none => []
  -- An operation may return in the step that begins it, as a select without handles does.
  | _, some t => w'.asked t ++ w'.returned t
  | _, none => []

/-- **The machine that keeps the history of its run**, step by step. -/
def history (kind : Nat → Kind T) :
    Lib.System (World Tid T × List (List (Event Tid T))) (Label Tid T) :=
  (system kind).recorded fun w l w' => some (w.events kind l w')

/-- A step adds to the history what is written down in it. -/
theorem flatten_of_step {kind : Nat → Kind T} {x y : World Tid T × List (List (Event Tid T))}
    {l : Label Tid T} (hs : (history kind).step x l y) :
    y.2.flatten = x.2.flatten ++ x.1.events kind l y.1 := by
  rw [hs.2]
  simp only [Option.toList_some, List.flatten_append, List.flatten_singleton]

/-- The state and the history these labels lead to from the start. -/
def recount (kind : Nat → Kind T) (ls : List (Label Tid T)) :
    Option (World Tid T × List (List (Event Tid T))) :=
  Lib.System.replay (Lib.System.recordStep (fun w l => w.step kind l) fun w l w' => some (w.events kind l w'))
    (World.init kind, []) ls

theorem reachable_of_recount {kind : Nat → Kind T} {ls : List (Label Tid T)}
    {x : World Tid T × List (List (Event Tid T))} (h : recount kind ls = some x) :
    (history kind).Reachable x :=
  Lib.System.Reachable.replay (fun _ _ _ h => Lib.System.recorded_step (fun _ _ _ hs => hs) h)
    (.init (s := (World.init _, [])) ⟨rfl, rfl⟩) h

variable {kind : Nat → Kind T} {w w' : World Tid T} {t : Tid} {act : Act Tid T} {th : Thread Tid T}
  {count : Nat → Side → Nat} {D D' : Ledger Tid T} {g : Frame Tid T}

/-- **What is written down in a step**: what a body does, or what it is asked for at its beginning. -/
theorem events_cases {l : Label Tid T} (hs : w.step kind l = some w') :
    (∃ t act th count, Turn kind w t act th count ∧ After w w' t act th count ∧
        ((∃ f pr, Frame.Next kind w.shared t (w.thread t).frame (w.thread t).prog act f pr ∧
            th = { w.thread t with frame := f, prog := pr } ∧
            w.events kind l w' = w.deeds kind t act ++ w'.returned t) ∨
          ((w.thread t).frame.call = .none ∧ w.events kind l w' = w'.asked t ++ w'.returned t))) ∨
      (w.events kind l w' = [] ∧ ((∃ c d, w' = w.setCount c d (w.count c d + 1)) ∨
        ∃ now, w' = { w with shared := { w.shared with clock := now } })) := by
  have hother := other_cases hs
  cases l with
  | run t spurious order =>
    obtain ⟨act, rep, he, f, pr, hn, ha⟩ := run_exec hs
    refine .inl ⟨t, act, _, _, .next hn, ha, .inl ⟨f, pr, hn, rfl, ?_⟩⟩
    simp only [events, Label.thread, he]
  | start _ _ | complete _ _ | clone _ _ | drop _ _ _ | advance _ =>
    rcases hother (fun _ _ _ => by simp) with ⟨t, act, th, count, ht, ha, hcall, hl⟩ |
      ⟨c, d, -, hw, hl⟩ | ⟨now, -, hw, hl⟩
    · exact .inl ⟨t, act, th, count, ht, ha, .inr ⟨hcall, by simp only [events, hl]⟩⟩
    · exact .inr ⟨by simp only [events, hl], .inl ⟨c, d, hw⟩⟩
    · exact .inr ⟨by simp only [events, hl], .inr ⟨now, hw⟩⟩

/-! ## The ledger and the history -/

/-- What is written down of a step that does nothing in the ledger. -/
inductive Aside (w : World Tid T) (t : Tid) : Event Tid T → Prop where
  | looks (p : Nat) (hf : (w.thread t).frame.touches = some p) : Aside w t (.look (w.ident t) p)
  | takes (c : Nat) (d : Side) (k : Nat) : Aside w t (.take (w.ident t) c d k)
  | fires (c : Nat) : Aside w t (.fire (w.ident t) c)

/-- What is written down of a move in the ledger. -/
inductive Noted (kind : Nat → Kind T) (w : World Tid T) (t : Tid) (act : Act Tid T) (g : Frame Tid T)
    (D : Ledger Tid T) : Ledger Tid T → List (Event Tid T) → Prop where
  | idle {es : List (Event Tid T)} (hes : ∀ e ∈ es, w.Aside t e) : Noted kind w t act g D D es
  | enter {pl : Place} {v : Packet T}
      (hstack : v.onStack = true → (w.thread t).frame.job = some ⟨pl.chan, v.msg⟩) :
      Noted kind w t act g D (D.put w.shared.fresh (Accounts.offered w t pl v))
        [.offer (w.ident t) w.shared.fresh v]
  | meet {p c : Nat} {d : Side} {e : Entry Tid} {x y : Lib.Deal (Party Tid) T} {a b : Party Tid}
      (hm : Meets kind w t act g D p c d e x y) (hc : y.owner.place.chan = c) (ha : y.giver = some a)
      (hb : y.taker = some b) : Noted kind w t act g D (D.put p y) [.pair a.ident b.ident c p]
  | withdraw {p : Nat} {x y : Lib.Deal (Party Tid) T} (hdeal : D p = some x)
      (hnext : x.next .withdraw = some y) : Noted kind w t act g D (D.put p y) []
  | touch {p : Nat} {x y : Lib.Deal (Party Tid) T} {mv : Lib.Deal.Move (Party Tid) T}
      {ev : Event Tid T} (hdeal : D p = some x) (hnext : x.next mv = some y)
      (hmv : ∀ q, mv ≠ .meet q) (htouch : ev.touch = some (w.ident t, p))
      (hmarks : ∀ q k, ev.marks q k = true ↔ p = q ∧ mv.mark = some k)
      (hactor : ∃ a, x.actor mv = some a ∧ a.ident = w.ident t)
      (hstore : ∀ m, mv = .store m → ∃ c, (w.thread t).frame = .finish ⟨c, some m⟩ (.storeMsg p)) :
      Noted kind w t act g D (D.put p y) [ev]

theorem deeds_of_quiet (hcall : (w.thread t).frame.call.move =
      (none : Option (Nat × Lib.Deal.Move (Party Tid) T)))
    (hq : w.shared.Quiet kind t act) : ∀ e ∈ w.deeds kind t act, w.Aside t e := by
  intro e he
  cases act with
  | drive c k b a =>
    simp only [deeds, taken, List.mem_append] at he
    rcases he with he | he <;> split at he <;> cases he <;> first | exact .takes _ _ _ | contradiction
  | offer c d slot => exact absurd hq.fresh (Nat.succ_ne_self _)
  | queue c d v => exact absurd hq.fresh (Nat.succ_ne_self _)
  | wakeOne c d =>
    simp only [deeds] at he
    split at he
    · rename_i e' hk hfound
      exact absurd hfound (hq.wake c d e' (by rw [hk]; trivial) rfl)
    · cases he
  | unregister c d slot =>
    simp only [deeds] at he
    split at he
    · rename_i hk hfr
      cases hfound : (w.shared.reg.unregister c d ⟨t, slot⟩).1 with
      | none =>
        rw [hfound] at he
        cases he
      | some e' => exact absurd hfound (hq.unregister c d slot e' (by rw [hk]; trivial) rfl)
    · cases he
  | takeTick c duration =>
    obtain rfl := List.mem_singleton.mp he
    exact .fires c
  | setReceived c =>
    simp only [deeds] at he
    split at he
    · cases he
    · obtain rfl := List.mem_singleton.mp he
      exact .fires c
  | _ =>
    cases hc : (w.thread t).frame.call with
    | loadOnStack p =>
      obtain ⟨job, hf⟩ := Frame.calls_of_eq hc
      simp only [deeds, hc, List.mem_singleton] at he
      rw [he]
      exact .looks p (by rw [hf]; rfl)
    | waitReady p =>
      simp only [deeds, hc, List.mem_singleton] at he
      rw [he]
      refine .looks p ?_
      rcases Frame.calls_of_eq hc with ⟨job, mode, hf⟩ | ⟨job, hf⟩ <;> rw [hf] <;> rfl
    | storeMsg p msg | setReady p | takeMsg p | dropPacket p =>
      rw [hc] at hcall
      cases hcall
    | _ =>
      simp only [deeds, hc] at he
      cases he

omit [DecidableEq Tid] in
/-- Who works on a packet is a party to its deal, and has something to do about it, or is the owner,
    waiting for its stack frame. -/
theorem Accounts.holds (h : Accounts kind w D) {p : Nat} (hf : (w.thread t).frame.touches = some p) :
    ∃ x q, D p = some x ∧ x.Between q ∧ q.ident = w.ident t ∧
      (x.Live ∨ q = x.owner ∧ (x.stage = .over → x.kept = true)) := by
  have hgrip := h.grip t
  have owns : ∀ {P}, D.Owns t (w.thread t).ops p P → (∀ x, P x → x.stage = .over → x.kept = true) →
      ∃ x q, D p = some x ∧ x.Between q ∧ q.ident = w.ident t ∧
        (x.Live ∨ q = x.owner ∧ (x.stage = .over → x.kept = true)) := by
    rintro P ⟨x, hdeal, rfl, hop, hP⟩ hkept
    exact ⟨x, x.owner, hdeal, .inl rfl, by rw [Party.ident, hop]; rfl, .inr ⟨rfl, hkept x hP⟩⟩
  have gives : ∀ {P}, D.Gives t (w.thread t).ops p P → (∀ x, P x → x.Live) →
      ∃ x q, D p = some x ∧ x.Between q ∧ q.ident = w.ident t ∧
        (x.Live ∨ q = x.owner ∧ (x.stage = .over → x.kept = true)) := by
    rintro P ⟨x, q, hdeal, hq, rfl, hop, hP⟩ hlive
    exact ⟨x, q, hdeal, Lib.Deal.between_of_giver hq, by rw [Party.ident, hop]; rfl, .inl (hlive x hP)⟩
  have takes : ∀ {P}, D.Takes t (w.thread t).ops p P → (∀ x, P x → x.Live) →
      ∃ x q, D p = some x ∧ x.Between q ∧ q.ident = w.ident t ∧
        (x.Live ∨ q = x.owner ∧ (x.stage = .over → x.kept = true)) := by
    rintro P ⟨x, q, hdeal, hq, rfl, hop, hP⟩ hlive
    exact ⟨x, q, hdeal, Lib.Deal.between_of_taker hq, by rw [Party.ident, hop]; rfl, .inl (hlive x hP)⟩
  unfold Frame.touches at hf
  split at hf <;> cases hf <;> rename_i hfr <;> rw [hfr] at hgrip
  · exact owns hgrip fun x hx => by simp [hx.2]
  · exact owns hgrip fun x hx _ => hx.1
  · exact owns hgrip fun x hx _ => hx.2.1
  · exact gives hgrip fun x hx => by simp [Lib.Deal.Live, hx]
  · rcases hgrip with hgrip | hgrip
    · exact gives hgrip fun x hx => by simp [Lib.Deal.Live, hx.2]
    · exact takes hgrip fun x hx => by simp [Lib.Deal.Live, hx.2]
  · exact takes hgrip fun x hx => hx.live
  · exact takes hgrip fun x hx => hx.2.live
  · exact takes hgrip fun x hx => hx.2.1.live
  · exact takes hgrip fun x hx => by simp [Lib.Deal.Live, hx]
  · exact owns hgrip fun x hx => by simp [hx.2]

/-- **What is written down of a step is what it does in the ledger.** -/
theorem Deed.noted (hd : Deed kind w t act g D D') (h : Engagements kind w D) (ha : Accounts kind w D) :
    Noted kind w t act g D D' (w.deeds kind t act) := by
  cases hd with
  | idle hcall hq => exact .idle (deeds_of_quiet hcall hq)
  | enter hz hreg hstack =>
    have hjob : ∀ {pl : Place} {v : Packet T}, (∃ job mode, (w.thread t).frame = .zero job mode .pair ∧
        g = .zero job mode (.wait w.shared.fresh) ∧ job.chan = pl.chan ∧ job.side = pl.side ∧
        job.msg = v.msg) → (w.thread t).frame.job = some ⟨pl.chan, v.msg⟩ := by
      rintro pl v ⟨⟨c, msg⟩, mode, hf, -, rfl, -, rfl⟩
      rw [hf]
      rfl
    rcases hreg with ⟨rfl, rfl⟩ | ⟨rfl, -⟩ <;> exact .enter fun hon => hjob (hstack hon)
  | meet hz hact he hp hdeal hnext hcomes hcarry =>
    rename_i c d e p x y
    have hm : Meets kind w t act g D p c d.opposite e x y :=
      ⟨hz, hact, he, hp, hdeal, by rwa [Side.opposite_opposite], hcomes, by rwa [Side.opposite_opposite]⟩
    obtain ⟨hthread, hop, hplace, -⟩ := hm.offers ha
    obtain ⟨howner, hpartner⟩ := hm.parties
    have hside := (ha.shows p x hdeal).side
    have hgives := (Lib.Deal.next_static hnext).2.1
    -- The owner of the packet is the operation its thread is in, since the entry is still queued.
    have hident : x.owner.ident = w.ident e.owner := by
      rw [Party.ident, hthread, hop]
      rfl
    have hdeeds : w.deeds kind t act = w.paired t c d.opposite e := by
      rw [hact]
      simp only [deeds, hz.eq, he]
    have hown : y.owner.ident = w.ident e.owner := by rw [howner, hident]
    have hchan : y.owner.place.chan = c := by rw [howner, hplace]
    cases d with
    | send =>
      have hg : y.gives = false := by
        rw [hgives]
        cases hg : x.gives with
        | false => rfl
        | true =>
          have hside := hside.mp hg
          rw [hplace] at hside
          cases hside
      have hpaired : w.paired t c Side.send.opposite e = [.pair (w.ident t) (w.ident e.owner) c p] := by
        simp only [paired, Side.opposite, hp]
      rw [hdeeds, hpaired, ← hown]
      refine .meet (a := ⟨t, (w.thread t).ops, ⟨c, .send, 0⟩⟩) hm hchan ?_ ?_
      · simpa only [Lib.Deal.giver, hg, Bool.false_eq_true, if_false, Side.opposite] using hpartner
      · simp only [Lib.Deal.taker, hg, Bool.false_eq_true, if_false]
    | recv =>
      have hg : y.gives = true := by
        rw [hgives]
        refine hside.mpr ?_
        rw [hplace]
        rfl
      have hpaired : w.paired t c Side.recv.opposite e = [.pair (w.ident e.owner) (w.ident t) c p] := by
        simp only [paired, Side.opposite, hp]
      rw [hdeeds, hpaired, ← hown]
      refine .meet (b := ⟨t, (w.thread t).ops, ⟨c, .recv, 0⟩⟩) hm hchan ?_ ?_
      · simp only [Lib.Deal.giver, hg, if_true]
      · simpa only [Lib.Deal.taker, hg, if_true, Side.opposite] using hpartner
  | back hz hact he hp hdeal hnext howner hcall hrest =>
    rename_i c slot d e p x y mv
    rcases hcall with ⟨rfl, hcall⟩ | ⟨rfl, hcall⟩
    · have hdeeds : w.deeds kind t act = [] := by
        rw [hact]
        simp only [deeds, hz.eq, hcall]
      rw [hdeeds]
      exact .withdraw hdeal hnext
    · have hdeeds : w.deeds kind t act = [.free (w.ident t) p] := by
        rw [hact]
        simp only [deeds, hz.eq, hcall, he, dropped, Option.bind_some, hp]
      rw [hdeeds]
      have hident : x.owner.ident = w.ident t := by
        obtain ⟨hmem, hoper⟩ := Accounts.found_unregister he
        obtain ⟨r, y', hr, hdeal', -, hop, -⟩ :=
          ha.offer_of_listed hz hmem (congrArg Operation.thread hoper)
        obtain rfl := Option.some.inj (hp.symm.trans hr)
        obtain rfl := Option.some.inj (hdeal.symm.trans hdeal')
        rw [Party.ident, howner, hop]
        rfl
      refine .touch hdeal hnext (fun _ => by simp) rfl (fun q k => ?_) ⟨_, rfl, hident⟩ (by simp)
      simp only [Event.marks, Lib.Deal.Move.mark, Bool.and_eq_true, decide_eq_true_eq, Option.some.injEq]
      exact and_congr_right fun _ => eq_comm
  | fill hf hdeal hnext hactor hthread hst hact hcall =>
    rename_i p x y mv a
    have hdeeds : ∀ {call : Call T}, (w.thread t).frame.call = call →
        w.deeds kind t act = match call with
          | .storeMsg p msg => [.fill (w.ident t) p msg]
          | .setReady p => [.setReady (w.ident t) p]
          | .loadOnStack p | .waitReady p => [.look (w.ident t) p]
          | .takeMsg p => [.empty (w.ident t) p]
          | .dropPacket p => [.free (w.ident t) p]
          | _ => [] := by
      rintro call rfl
      rcases hact with rfl | ⟨v, rfl⟩ <;> rfl
    have hident : a.ident = w.ident t := by
      obtain ⟨x', q, hdeal', hq, hident, -⟩ := ha.holds hf
      obtain rfl := Option.some.inj (hdeal.symm.trans hdeal')
      have hmv : ∀ r, mv ≠ .meet r := by
        rintro r rfl
        simp only [Lib.Deal.next, if_neg hst] at hnext
        cases hnext
      rw [h.same hdeal (Lib.Deal.between_of_actor hactor hmv) hq (hthread.trans
        (congrArg Ident.thread hident).symm), hident]
    cases hc : (w.thread t).frame.call <;> rw [hc] at hcall <;> cases hcall <;> rw [hdeeds hc]
    · refine .touch hdeal hnext (fun _ => by simp) rfl (fun q k => ?_) ⟨_, hactor, hident⟩ fun m hm => ?_
      · simp only [Event.marks, Lib.Deal.Move.mark, Bool.and_eq_true, decide_eq_true_eq,
          Option.some.injEq]
        exact and_congr_right fun _ => eq_comm
      · cases hm
        exact Frame.calls_of_eq hc
    all_goals
      refine .touch hdeal hnext (fun _ => by simp) rfl (fun q k => ?_) ⟨_, hactor, hident⟩ (by simp)
      simp only [Event.marks, Lib.Deal.Move.mark, Bool.and_eq_true, decide_eq_true_eq, Option.some.injEq]
      exact and_congr_right fun _ => eq_comm

end World

end CrossbeamChannel
