import CrossbeamChannel.World.Agents
import CrossbeamChannel.World.InOrder

/-!
# No lost wake-up

As long as somebody waits in a queue of a buffered channel, for every message, or free slot, that
could serve a waiting thread there is a thread of its own that sees to it: `World.Attended`. A thread
that registers looks at the channel afterwards, so it comes to wait only when there is nothing. The
invariant holds along every run in which no timed operation squanders what it was woken for.

The number of agents has to be counted against the number of messages (`Lib.Covered`): it would not do to
have one agent while there are two messages and two sleepers, as that agent wakes one of them. The count
need not be kept while nobody waits for sure, and is made up when a thread becomes sure that it has to
wait (`Unsure`, `Awaited`): the channel is empty then, so there is nothing to be covered. This is what the
look behind `register` is for (`array.rs` 393 and 452, `list.rs` 423).
-/

namespace CrossbeamChannel

variable {Tid T : Type}

namespace Frame

variable {kind : Nat → Kind T} {f : Frame Tid T} {pr : Prog} {c : Nat} {x : Place}

/-- As long as a thread has an entry in a queue, it only asks about the channels. -/
theorem asks_of_left [DecidableEq Tid] {k : BufferCall T} (hleft : (f.stake kind pr).left x)
    (hc : f.call.onBuffer kind pr = some (c, k)) :
    (∃ d, k = .unavailable d) ∨ k = .isDisconnected := by
  have calm : f.Calm kind → False := by
    intro hcalm
    rw [hcalm] at hleft
    exact hleft
  cases k with
  | unavailable d => exact .inl ⟨d, rfl⟩
  | isDisconnected => exact .inr rfl
  | start d =>
    obtain ⟨⟨d', hcall | hcall | hcall⟩, -⟩ := tries_of_starts hc
    · exact (calm (calm_of_call (.inl ⟨c, d', hcall⟩))).elim
    · exact (calm (calm_of_call (.inr (.inl ⟨c, d', hcall⟩)))).elim
    · obtain ⟨handles, timeout, i, y, rfl, -⟩ := calls_of_eq hcall
      exact hleft.elim
  | write msg =>
    rw [(finish_of_onBuffer hc).1 msg rfl] at hleft
    exact hleft.elim
  | read =>
    rw [(finish_of_onBuffer hc).2 rfl] at hleft
    exact hleft.elim
  | disconnect =>
    obtain ⟨d, rfl⟩ := World.close_of_onBuffer hc
    exact hleft.elim

/-- The thread was selected, and is about to look at its deadline. -/
def late : Frame Tid T → Bool
  | .plain _ _ (.deadline true) => true
  | _ => false

/-- What a select works on. -/
def handles : Frame Tid T → List Handle
  | .select handles _ _ => handles
  | _ => []

end Frame

namespace World

/-- The thread has registered for this operation, and has yet to make sure that it has to wait;
    or it is about to abort its attempt to block. -/
def Unsure (w : World Tid T) (t : Tid) (c : Nat) (d : Side) (slot : Nat) : Prop :=
  ((w.thread t).frame.call = .register c d slot ∧ (w.thread t).prog = .checking ∧
    (w.shared.buffer c).phase t ≠ .answered d true) ∨
  (∃ job mode, (w.thread t).frame = .plain job mode .abort) ∨ w.Aborting t

/-- Somebody waits in the queue, and has made sure that it has to. -/
def Awaited (w : World Tid T) (c : Nat) (d : Side) : Prop :=
  ∃ e ∈ (w.shared.reg.waker c d).entries, (w.shared.reg.cx e.owner).select = .waiting ∧
    ¬ w.Unsure e.owner c d e.oper.slot

variable [DecidableEq Tid]

/-- **For everything a waiting thread waits for there is somebody who sees to it.** -/
def Attended (kind : Nat → Kind T) (w : World Tid T) : Prop :=
  ∀ c d, (kind c).Buffered → (kind c).Queues d →
    (w.shared.buffer c).view.isDisconnected = false → w.Awaited c d →
      Lib.Covered ((w.shared.buffer c).available d) {t | Agent kind w c d t}

variable {kind : Nat → Kind T} {w w' : World Tid T} {t : Tid} {act : Act Tid T}
  {th : Thread Tid T} {count : Nat → Side → Nat} {c slot : Nat} {d : Side}

/-- An agent has no entry in a queue of which its context is undecided. -/
theorem Agent.not_waiting (hs : Sound kind w) (h : Agent kind w c d t) {x : Place}
    (hleft : (w.stakes kind t).left x) (hw : (w.shared.reg.cx t).select = .waiting) : False := by
  have hnc : ∀ x tk, (w.thread t).frame ≠ .chosen x tk := by
    intro x tk hf
    rw [stakes, hf] at hleft
    exact hleft
  cases h with
  | moved hp =>
    obtain ⟨k, hc⟩ := hs.call_of_moved hp hnc
    have hfits := hs.fits hc
    generalize (w.shared.buffer c).phase t = p at hp hfits
    rcases Frame.asks_of_left hleft hc with ⟨d', rfl⟩ | rfl
    · cases p <;> first | exact hp | exact hfits
    · cases p <;> first | exact hp | exact hfits
  | wakes hf _ _ | late hf _ _ =>
    rw [stakes, hf] at hleft
    exact hleft
  | woken hsel _ _ =>
    rw [hsel] at hw
    cases hw
  | tries hc _ => rcases Frame.asks_of_left hleft hc with ⟨d', h⟩ | h <;> cases h

omit [DecidableEq Tid] in
/-- Who takes something from the other side was no agent of this one. -/
theorem not_agent_of_trying (hs : Sound kind w)
    (hp : (w.shared.buffer c).phase t = .trying d.opposite) : ¬ Agent kind w c d t := by
  intro h
  have hnc : ∀ x tk, (w.thread t).frame ≠ .chosen x tk := by
    intro x tk hf
    have hm := hs.phase t c
    rw [hf, hp] at hm
    have hm : (.trying d.opposite : Phase T) =
        if c = x.chan then tk.phase (kind x.chan) x.side else .idle := hm
    split at hm
    · cases tk <;> cases hkind : kind x.chan <;> rw [hkind] at hm <;> cases hm
    · cases hm
  obtain ⟨k, hc⟩ : ∃ k, (w.thread t).frame.call.onBuffer kind (w.thread t).prog = some (c, k) := by
    by_contra hno
    rw [hs.idle hnc fun k hk => hno ⟨k, hk⟩] at hp
    cases hp
  cases h with
  | moved hp' =>
    rw [hp] at hp'
    exact hp'
  | wakes hf _ _ | late hf _ _ =>
    rw [hf] at hc
    cases hc
  | woken _ hmade hcall =>
    have hfits := hs.fits hc
    rw [hp] at hfits
    obtain ⟨d', rfl⟩ : ∃ d', k = .start d' := by
      cases k <;> first | exact ⟨_, rfl⟩ | exact hfits.elim
    have calm : (w.thread t).frame.Calm kind → False := by
      intro hcalm
      rw [stakes, hcalm] at hmade
      exact hmade
    obtain ⟨⟨d'', hstart | hretry | haccept⟩, -⟩ := Frame.tries_of_starts hc
    · exact calm (Frame.calm_of_call (.inl ⟨c, d'', hstart⟩))
    · exact calm (Frame.calm_of_call (.inr (.inl ⟨c, d'', hretry⟩)))
    · exact hcall c d'' haccept
  | tries _ hp' =>
    rw [hp] at hp'
    exact Side.opposite_ne d hp'

/-- What a turn does to what can be seen of a channel. -/
theorem view_next (hx : Stepped kind w w' t act th count) :
    (w'.shared.buffer c).view = (w.shared.buffer c).view ∨
      (∃ d, (w.shared.buffer c).phase t = .trying d ∧
        (w'.shared.buffer c).view = (w.shared.buffer c).view.take d ∧
          ((w'.shared.buffer c).phase t).Moved d) ∨
      (w'.shared.buffer c).view.isDisconnected = true := by
  rcases drive_next hx c with hsame | ⟨k, r, -, hdrive⟩
  · exact .inl (congrArg Buffer.view hsame)
  · exact hdrive.view_cases

/-- The look behind a registration goes on, or finds that there is nothing, or that there may be
    something. -/
theorem Unsure.next (hun : w.Unsure t c d slot) (hx : Stepped kind w w' t act th count)
    {g : Frame Tid T} {pr' : Prog}
    (hn : Frame.Next kind w.shared t (w.thread t).frame (w.thread t).prog act g pr')
    (hg : (w'.thread t).frame = g) (hpr : (w'.thread t).prog = pr')
    (hk : (kind c).Buffered) (hq : (kind c).Queues d) :
    w'.Unsure t c d slot ∨ (w'.shared.buffer c).available d = 0 ∨
      (w'.shared.reg.cx t).select ≠ .waiting := by
  rcases hun with ⟨hcall, hprog, hp⟩ | habort
  · have hc : (w.thread t).frame.call.onBuffer kind (w.thread t).prog = some (c, .unavailable d) := by
      rw [hcall, hprog]
      cases hkind : kind c with
      | array ch built => simp only [Call.onBuffer, hkind, Prog.checks]
      | list =>
        rw [hkind] at hq
        obtain rfl : d = .recv := hq
        simp only [Call.onBuffer, hkind, Prog.checks]
      | _ =>
        rw [hkind] at hk
        exact hk.elim
    obtain ⟨r, hdrive, hmore, hanswer⟩ := hn.drives hx.sound.buffer hc
    have hfits := hx.sound.fits hc
    have hcap : (w'.shared.buffer c).cap = (w.shared.buffer c).cap := by
      rw [hx.after.shared]
      exact (hx.turn.kept hx.sound hx.typed).cap c
    rw [← hx.after.shared] at hdrive
    cases r with
    | none =>
      obtain ⟨rfl, hc'⟩ := hmore rfl
      have hcheck : pr' = .checking := by
        rw [hcall] at hc'
        simp only [Call.onBuffer] at hc'
        split at hc'
        · cases hc'
        · cases pr' <;> first | rfl | cases hc'
        · cases pr' <;> first | rfl | cases hc'
        · cases hc'
      by_cases hp' : (w'.shared.buffer c).phase t = .answered d true
      · -- It has found nothing.
        refine .inr (.inl (Buffer.available_eq_zero ?_))
        rw [hcap]
        exact hdrive.finds hp hp'
      · exact .inl (.inl ⟨by rw [hg, hcall], hpr.trans hcheck, hp'⟩)
    | some a =>
      -- The answer is that there may be something.
      have ha : a = .flag false := by
        have hans := hdrive.answered
        generalize (w.shared.buffer c).phase t = p at hp hfits hans
        cases p with
        | answered d' b =>
          obtain rfl : d' = d := hfits
          cases hans
          cases b with
          | false => rfl
          | true => exact absurd rfl hp
        | _ => cases hans
      subst ha
      obtain ⟨-, order, hres⟩ := (hanswer _ rfl).2 _ rfl
      refine .inl (.inr ?_)
      rcases Frame.calls_of_eq hcall with ⟨job, mode, hf, -⟩ | ⟨handles, timeout, i, y, hf, -⟩
      · rw [hf] at hres
        cases hres
        exact .inl ⟨job, mode, hg⟩
      · rw [hf] at hres
        cases hres
        exact .inr ⟨handles, timeout, i, hg⟩
  · have hcall : (w.thread t).frame.call = .abort := by
      rcases habort with ⟨job, mode, hf⟩ | ⟨handles, timeout, i, hf⟩ <;> rw [hf] <;> rfl
    obtain ⟨spurious, rep, he, -⟩ := hn.exec
    rw [hcall] at he
    cases he
    refine .inr (.inr ?_)
    rw [hx.after.shared]
    simp only [Shared.apply, Registry.abort, Function.update_self]
    exact Context.trySelect_ne_waiting (by simp)

/-- Whoever registers has yet to look. -/
theorem unsure_of_enters (hx : Stepped kind w w' t act th count) {g : Frame Tid T} {pr' : Prog}
    (hn : Frame.Next kind w.shared t (w.thread t).frame (w.thread t).prog act g pr')
    (hg : (w'.thread t).frame = g) (hpr : (w'.thread t).prog = pr')
    (hk : (kind c).Buffered) (hq : (kind c).Queues d) {e : Entry Tid}
    (he : Shared.Enters w.shared t c d e act) : w'.Unsure t c d e.oper.slot := by
  obtain ⟨spurious, rep, hexec, hmore, -⟩ := hn.exec
  have hex := Shared.exec_explains hexec
  cases act with
  | register c' d' slot =>
    obtain ⟨rfl, rfl, rfl⟩ := he
    obtain ⟨hcall, hprog, -, hrep⟩ := hex
    obtain ⟨rfl, rfl⟩ := hmore _ hrep
    refine .inl ⟨by rw [hg, hcall], hpr, ?_⟩
    have hidle : (w.shared.buffer c').phase t = .idle := by
      refine hx.sound.idle (fun x tk hf => ?_) fun k hk => ?_
      · rw [hf] at hcall
        cases hcall
      · rw [hcall, hprog] at hk
        cases hkind : kind c' with
        | list =>
          rw [hkind] at hq
          obtain rfl : d' = .recv := hq
          simp [Call.onBuffer, hkind, Prog.checks] at hk
        | _ => simp [Call.onBuffer, hkind, Prog.checks] at hk
    rw [hx.after.shared]
    change (w.shared.buffer c').phase t ≠ _
    rw [hidle]
    simp
  | offer c' d' slot =>
    obtain ⟨rfl, -⟩ := he
    exact absurd hex.2.1 hk.not_zero
  | queue c' d' v =>
    obtain ⟨rfl, -⟩ := he
    rcases hex.1 with hcall | ⟨hz, -⟩
    · obtain ⟨job, mode, hf, rfl, -⟩ := Frame.calls_of_eq hcall
      have hz := hx.typed
      rw [hf] at hz
      exact absurd hz hk.not_zero
    · exact absurd hz hk.not_zero
  | _ => exact he.elim

/-- Nobody comes to wait while there is something. -/
theorem Awaited.before (haw : w'.Awaited c d) (hx : Stepped kind w w' t act th count)
    (hk : (kind c).Buffered) (hq : (kind c).Queues d) :
    w.Awaited c d ∨ (w'.shared.buffer c).available d = 0 := by
  obtain ⟨e, he, hw, hsure⟩ := haw
  have hleft' := hx.sound'.books.listed c d e he
  by_cases hu : e.owner = t
  · rw [hu] at hw hsure hleft'
    -- Who waits is in a turn of its body.
    have idle : (w.thread t).frame.Calm kind →
        (w.shared.reg.waker c d).entries = (w'.shared.reg.waker c d).entries →
        False := by
      intro hcalm hsame
      rw [← hsame] at he
      have hleft := hx.sound.books.listed c d e he
      rw [hu, stakes, hcalm] at hleft
      exact hleft
    have silent : act = .silent →
        (w.shared.reg.waker c d).entries = (w'.shared.reg.waker c d).entries := by
      intro hact
      rw [hx.after.shared, hact]
      rfl
    have hturn := hx.turn
    cases hturn with
    | next hn =>
      have hg := hx.after.frame
      have hpr := hx.after.prog
      rcases hx.after.mem he with hold | henters
      · have hleft := hx.sound.books.listed c d e hold
        rw [hu] at hleft
        have hwold : (w.shared.reg.cx t).select = .waiting := by
          have hw' := hw
          rw [hx.after.shared] at hw'
          rcases Shared.waiting_apply hw' with hwold | ⟨-, hrenews⟩
          · exact hwold
          · obtain ⟨spurious, rep, hexec, -⟩ := hn.exec
            rw [stakes, calm_of_renews (Shared.exec_explains hexec) hrenews] at hleft
            exact hleft.elim
        by_cases hun : w.Unsure t c d e.oper.slot
        · rcases hun.next hx hn hg hpr hk hq with hun' | hnone | hdec
          · exact absurd hun' hsure
          · exact .inr hnone
          · exact absurd hw hdec
        · exact .inl ⟨e, hold, by rwa [hu], by rwa [hu]⟩
      · exact absurd (unsure_of_enters hx hn hg hpr hk hq henters) hsure
    | start hover _ | drop hover _ _ => exact (idle (Frame.over_calm hover) (silent rfl)).elim
    | complete hf _ => exact (idle (by rw [hf]; exact fun _ => rfl) (silent rfl)).elim
  · refine .inl ⟨e, hx.after.mem_before he hu, hx.after.waiting_before hw hu, ?_⟩
    have hphase : (w'.shared.buffer c).phase e.owner = (w.shared.buffer c).phase e.owner := by
      rw [hx.after.shared]
      exact (hx.turn.kept hx.sound hx.typed).others c e.owner hu
    unfold Unsure Aborting at hsure ⊢
    rwa [hx.after.others hu, hphase] at hsure

/-- Who is woken becomes an agent. -/
theorem handed (hx : Stepped kind w w' t act th count) {job : Job T} {out : Outcome T}
    (hf : (w.thread t).frame = .finish job (.wakeOne out)) (hact : act = .wakeOne c d)
    (haw : w'.Awaited c d) :
    ∃ u, u ≠ t ∧ ¬ Agent kind w c d u ∧ Agent kind w' c d u := by
  subst hact
  cases hone : (w.shared.reg.wakeOne c d t).1 with
  | none =>
    -- Nobody waits.
    obtain ⟨e, he, hw, -⟩ := haw
    have hold : e ∈ (w.shared.reg.waker c d).entries := (hx.after.mem he).resolve_right id
    have hu : e.owner ≠ t := by
      intro hu
      have hleft := hx.sound.books.listed c d e hold
      rw [hu, stakes, hf] at hleft
      exact hleft
    exact absurd (hx.after.waiting_before hw hu) (Waker.wakeOne_none.mp hone e hold hu)
  | some e =>
    obtain ⟨he, hu, hw⟩ := Waker.wakeOne_some hone
    have hleft := hx.sound.books.listed c d e he
    have hsel : (w'.shared.reg.cx e.owner).select = .operation ⟨e.owner, e.oper.slot⟩ := by
      have hone' : ((w.shared.reg.waker c d).wakeOne w.shared.reg.cx t).1 = some e := hone
      rw [hx.after.shared]
      simp only [Shared.apply, Registry.wakeOne]
      rw [hone', Waker.wakeContext_owner hw, Context.storePacket_select]
    refine ⟨e.owner, hu, fun h => h.not_waiting hx.sound hleft hw, .woken hsel ?_ fun c' d' hcall => ?_⟩
    · rw [stakes, hx.after.others hu]
      exact (Frame.stake_ok _ _).sub _ hleft
    · -- It waits, so it has not come to accept.
      rw [hx.after.others hu] at hcall
      obtain ⟨handles, timeout, i, y, hfr, -⟩ := Frame.calls_of_eq hcall
      rw [stakes, hfr] at hleft
      exact hleft

/-- **Every turn that squanders nothing keeps the queues attended.** -/
theorem Attended.after (h : Attended kind w) (hx : Stepped kind w w' t act th count)
    (hcap : ∀ c d, (kind c).Buffered → (kind c).Queues d → d = .send → (w.shared.buffer c).cap ≠ none)
    (hno : ¬ w.Squanders w' t) : Attended kind w' := by
  intro c d hk hq hconn' haw'
  by_cases hzero : (w'.shared.buffer c).available d = 0
  · rw [hzero]
    exact .zero _
  · have haw := (haw'.before hx hk hq).resolve_right hzero
    have hb := hx.sound.buffer c
    have hb' := hx.sound'.buffer c
    -- Somebody was waiting before as well: whoever has just become sure has found nothing.
    have hsend := hcap c d hk hq
    have hcap' : (w'.shared.buffer c).cap = (w.shared.buffer c).cap := by
      rw [hx.after.shared]
      exact (hx.turn.kept hx.sound hx.typed).cap c
    have others : ∀ u ∈ {u | Agent kind w c d u}, u ≠ t → u ∈ {u | Agent kind w' c d u} :=
      fun u hu hne => Agent.other hu hx hne
    have hconn : (w.shared.buffer c).view.isDisconnected = false := by
      rcases view_next hx (c := c) with hsame | ⟨d', -, htake, -⟩ | hclosed
      · rwa [← hsame]
      · rw [htake] at hconn'
        cases d' <;> exact hconn'
      · rw [hclosed] at hconn'
        cases hconn'
    have hcov := h c d hk hq hconn haw
    rcases view_next hx (c := c) with hsame | ⟨d', hp, htake, hmoved⟩ | hclosed
    · -- Nothing comes or goes, and whoever steps back has handed on.
      have havail : (w'.shared.buffer c).available d = (w.shared.buffer c).available d := by
        simp only [Buffer.available, hsame, hcap']
      rw [havail]
      by_cases ht : Agent kind w c d t ∧ ¬ Agent kind w' c d t
      · cases (ht.1.next hx hk hq hno).resolve_left ht.2 with
        | takes htake =>
          have := Buffer.available_take hb' hcap' hsend htake
          omega
        | empty hnone => exact absurd hnone hzero
        | wakes hf hact =>
          obtain ⟨u, -, hnot, hu⟩ := handed hx hf hact haw'
          exact hcov.pass others hnot hu
        | alone hnobody =>
          obtain ⟨e, he, -⟩ := haw'
          rw [hnobody] at he
          exact absurd he List.not_mem_nil
        | closed hclosed =>
          rw [hclosed] at hconn'
          cases hconn'
      · refine hcov.mono fun u hu => ?_
        by_cases hut : u = t
        · subst hut
          by_contra hnot
          exact ht ⟨hu, hnot⟩
        · exact others u hu hut
    · by_cases hd : d' = d
      · -- Something has been taken, by an agent or by another thread.
        subst hd
        rw [Buffer.available_take hb' hcap' hsend htake] at hcov
        exact hcov.spend others
      · -- There is something more, and whoever brought it sees to it.
        obtain rfl : d' = d.opposite := by
          cases d <;> cases d' <;> first | rfl | exact absurd rfl hd
        rw [Buffer.available_give hb hcap' hsend htake]
        have hnot : ¬ Agent kind w c d t := not_agent_of_trying hx.sound hp
        refine hcov.earn (fun u hu => others u hu ?_) hnot (.moved hmoved)
        rintro rfl
        exact hnot hu
    · rw [hclosed] at hconn'
      cases hconn'

omit [DecidableEq Tid] in
theorem Attended.congr (h : Attended kind w) (hthread : w'.thread = w.thread)
    (hbuffer : w'.shared.buffer = w.shared.buffer) (hreg : w'.shared.reg = w.shared.reg) :
    Attended kind w' := by
  intro c d hk hq hconn haw
  unfold Awaited Unsure Aborting at haw
  rw [hthread, hbuffer, hreg] at haw
  rw [hbuffer] at hconn ⊢
  refine (h c d hk hq hconn haw).mono fun u hu => ?_
  cases hu with
  | moved hp => exact .moved (by rwa [hbuffer])
  | wakes hf hchan hside => exact .wakes (by rwa [hthread]) hchan hside
  | woken hsel hmade hcall =>
    refine .woken (by rwa [hreg]) ?_ (by rwa [hthread])
    rw [stakes, hthread]
    exact hmade
  | late hf hchan hside => exact .late (by rwa [hthread]) hchan hside
  | tries hcall hp => exact .tries (by rwa [hthread]) (by rwa [hbuffer])

theorem attended_of_exec (x : (system kind : Lib.System (World Tid T) _).Exec)
    (hno : ∀ i < x.len, ∀ t, ¬ (x.state i).Squanders (x.state (i + 1)) t) {j : Nat} (hj : j ≤ x.len) :
    Attended kind (x.state j) := by
  induction j with
  | zero =>
    rintro c d - - - ⟨e, he, -⟩
    rw [x.start] at he
    exact absurd he List.not_mem_nil
  | succ j ih =>
    have hr := x.reachable (i := j) (by omega)
    have hr' := x.reachable hj
    obtain ⟨l, hl⟩ := x.next j (by omega)
    have hcap : ∀ c d, (kind c).Buffered → (kind c).Queues d → d = .send →
        ((x.state j).shared.buffer c).cap ≠ none := by
      rintro c d hk hq rfl
      rw [cap_of_reachable hr c]
      cases hkind : kind c with
      | array ch built => simp [Buffer.init, Buffer.cap]
      | list =>
        rw [hkind] at hq
        cases hq
      | _ =>
        rw [hkind] at hk
        exact hk.elim
    rcases step_cases hl with ⟨t, act, th, count, ht, ha⟩ | ⟨c, d, -, heq⟩ | ⟨now, -, heq⟩
    · exact (ih (by omega)).after ⟨sound_of_reachable hr, sound_of_reachable hr',
        aware_of_reachable hr, typed_of_reachable hr t, ht, ha⟩ hcap (hno j (by omega) t)
    · rw [heq]
      exact (ih (by omega)).congr rfl rfl rfl
    · rw [heq]
      exact (ih (by omega)).congr rfl rfl rfl

/-! ## When every thread is parked -/

/-- Thread `t` is in an operation on the channel, or in its `disconnect`. -/
def Inside (w : World Tid T) (t : Tid) (c : Nat) : Prop :=
  (∃ d, (w.thread t).frame.Works c d) ∨ ∃ d st, (w.thread t).frame = .close c d st

omit [DecidableEq Tid] in
theorem Agent.inside (h : Agent kind w c d t) (hs : Sound kind w)
    (htyped : (w.thread t).frame.Typed kind) : w.Inside t c := by
  cases h with
  | moved hp =>
    by_cases hch : ∃ y tk, (w.thread t).frame = .chosen y tk
    · obtain ⟨y, tk, hf⟩ := hch
      have hm := hs.phase t c
      rw [hf] at hm
      have hm : (w.shared.buffer c).phase t =
          if c = y.chan then tk.phase (kind y.chan) y.side else .idle := hm
      split at hm
      · rename_i hchan
        refine .inl ⟨y.side, ?_⟩
        rw [hf]
        exact ⟨hchan.symm, rfl⟩
      · rw [hm] at hp
        exact hp.elim
    · obtain ⟨k, hc⟩ := hs.call_of_moved hp fun y tk hf => hch ⟨y, tk, hf⟩
      refine .inl (Frame.works_of_onBuffer hc htyped ?_)
      rintro rfl
      have hfits := hs.fits hc
      generalize (w.shared.buffer c).phase t = p at hp hfits
      cases p <;> first | exact hp | exact hfits
  | @wakes job out hf hchan _ | @late job mode hf hchan _ =>
    refine .inl ⟨job.side, ?_⟩
    rw [hf]
    exact ⟨hchan, rfl⟩
  | woken _ hmade _ => exact .inl ⟨d, Frame.works_of_made hmade⟩
  | tries hc _ => exact .inl (Frame.works_of_onBuffer hc htyped (by simp))

omit [DecidableEq Tid] in
theorem Agent.not_parked (h : Agent kind w c d t) (hs : Sound kind w) : ¬ w.Parked t := by
  rintro ⟨hwaits, hw⟩
  have off : ∀ k, (w.thread t).frame.call.onBuffer kind (w.thread t).prog ≠ some (c, k) := by
    intro k hc
    obtain ⟨deadline, hcall⟩ := Call.waitUntil_of_waits hwaits
    rw [hcall] at hc
    cases hc
  cases h with
  | moved hp =>
    have hidle := hs.idle (c := c) (fun y tk hf => by rw [hf] at hwaits; cases hwaits) off
    rw [hidle] at hp
    exact hp
  | wakes hf _ _ | late hf _ _ =>
    rw [hf] at hwaits
    cases hwaits
  | woken hsel _ _ =>
    rw [hsel] at hw
    cases hw
  | tries hc _ => exact off _ hc

/-- Nothing that a waiting thread waits for lies idle. -/
structure Served (kind : Nat → Kind T) (w : World Tid T) (c : Nat) (d : Side) : Prop where
  /-- While somebody waits, there is a thread of its own for everything that could serve it. -/
  attended : (w.shared.buffer c).view.isDisconnected = false → w.Awaited c d →
    Lib.Covered ((w.shared.buffer c).available d) {t | Agent kind w c d t}
  /-- When every thread in an operation on the channel is parked, whoever waits there waits with
      reason. -/
  parked : (∀ t, w.Inside t c → w.Parked t) → ∀ t, (w.thread t).frame.Works c d →
    (w.shared.buffer c).view.isDisconnected = false ∧
      (w.shared.buffer c).view.Unavailable (w.shared.buffer c).cap d

theorem Attended.served (h : Attended kind w) (hr : (system kind).Reachable w)
    (hk : (kind c).Buffered) (hq : (kind c).Queues d) : Served kind w c d where
  attended := h c d hk hq
  parked := by
    intro hparked t hworks
    have hs := sound_of_reachable hr
    have htyped := typed_of_reachable hr
    obtain ⟨hwaits, hw⟩ := hparked t (.inl ⟨d, hworks⟩)
    obtain ⟨slot, hleft⟩ : ∃ slot, (w.stakes kind t).left ⟨c, d, slot⟩ :=
      (w.thread t).frame.left_of_waits hwaits hworks hq
    -- A parked thread is still in the queue, for nobody has selected it.
    obtain ⟨e, he, hoper⟩ := hs.books.present t _ hleft (by rw [hw]; simp)
    have howner : e.owner = t := by rw [Entry.owner, hoper]
    have hwe : (w.shared.reg.cx e.owner).select = .waiting := by rwa [howner]
    have hconn : (w.shared.buffer c).view.isDisconnected = false := by
      by_contra hclosed
      have hd : w.Disconnected kind c := by
        unfold Disconnected
        cases hkind : kind c <;> rw [hkind] at hk <;>
          first | exact Bool.eq_true_of_not_eq_false hclosed | exact hk.elim
      rcases told_of_reachable hr c d e hd he hwe with hre | ⟨s, hsw⟩
      · refine hre.not_parked ?_
        rw [howner]
        exact ⟨hwaits, hw⟩
      · -- Whoever is about to sweep is not parked.
        have hclose : ∃ d' st, (w.thread s).frame = .close c d' st := by
          rcases hsw with ⟨d', hf, -⟩ | ⟨d', hf⟩ | ⟨-, d', hf⟩ <;> exact ⟨d', _, hf⟩
        obtain ⟨hwaits', -⟩ := hparked s (.inr hclose)
        obtain ⟨d', st, hf⟩ := hclose
        rw [hf] at hwaits'
        cases st <;> cases hwaits'
    have haw : w.Awaited c d := by
      refine ⟨e, he, hwe, ?_⟩
      rw [howner]
      rintro (⟨hcall, -⟩ | ⟨job, mode, hf⟩ | ⟨handles, timeout, i, hf⟩)
      · rw [hcall] at hwaits
        cases hwaits
      · rw [hf] at hwaits
        cases hwaits
      · rw [hf] at hwaits
        cases hwaits
    -- All agents would be parked, which none of them is. So there is nothing they could see to.
    refine ⟨hconn, Buffer.unavailable (hs.buffer c) ?_ ?_⟩
    · rintro rfl
      rw [cap_of_reachable hr c]
      cases hkind : kind c with
      | array ch built => simp [Buffer.init, Buffer.cap]
      | list =>
        rw [hkind] at hq
        cases hq
      | _ =>
        rw [hkind] at hk
        exact hk.elim
    · refine (h c d hk hq hconn haw).eq_zero fun u hu => ?_
      exact hu.not_parked hs (hparked u (hu.inside hs (htyped u)))

/-- **No lost wake-up.** In every run in which no timed operation that has been selected returns
    `Timeout`, nothing that a waiting thread waits for lies idle. -/
theorem no_lost_wakeup (x : (system kind : Lib.System (World Tid T) _).Exec)
    (hno : ∀ i < x.len, ∀ t, ¬ (x.state i).Squanders (x.state (i + 1)) t) {j : Nat} (hj : j ≤ x.len)
    (hk : (kind c).Buffered) (hq : (kind c).Queues d) : Served kind (x.state j) c d :=
  (attended_of_exec x hno hj).served (x.reachable hj) hk hq

omit [DecidableEq Tid] in
theorem not_squanders (h : (w.thread t).frame.late = false) : ¬ w.Squanders w' t := by
  rintro ⟨job, mode, msg, hf, -⟩
  rw [hf] at h
  cases h

/-- Thread 0 waits in a `select` for a message, thread 1 has sent one and is about to wake it. -/
def sending : List (Label (Fin 2) Nat) :=
  .start 0 (.select [⟨0, .recv, 0, 0⟩] .never) :: List.replicate 25 (.run 0 false []) ++
    .start 1 (.plain ⟨0, some 7⟩ (.blocking none)) :: List.replicate 10 (.run 1 false [])

theorem no_lost_wakeup_sending :
    ∃ x : (system fun _ => .list : Lib.System (World (Fin 2) Nat) _).Exec,
      Served (fun _ => .list) (x.state 37) 0 .recv ∧
      ((x.state 37).shared.buffer 0).available .recv = 1 ∧
      ((x.state 37).shared.reg.waker 0 .recv).entries.length = 1 := by
  let x : (system fun _ => .list : Lib.System (World (Fin 2) Nat) _).Exec :=
    Lib.System.Exec.ofReplay (fun _ _ _ hs => hs) _ rfl sending (by decide +kernel)
  have hlate : ∀ i < 37, ∀ t, ((x.state i).thread t).frame.late = false := by decide +kernel
  refine ⟨x, ?_, by decide +kernel, by decide +kernel⟩
  refine no_lost_wakeup x (fun i hi t => ?_) (Nat.le_refl 37) trivial rfl
  exact not_squanders (hlate i hi t)

/-- Threads 0 and 1 wait for a message, thread 0 with a deadline, in a `select`. Thread 2 sends one,
    wakes thread 0, and time passes before thread 0 comes to run. -/
def overslept : List (Label Nat Nat) :=
  .start 0 (.plain ⟨0, none⟩ (.blocking (some 5))) :: List.replicate 86 (.run 0 false []) ++
    .start 1 (.select [⟨0, .recv, 0, 0⟩] .never) :: List.replicate 25 (.run 1 false []) ++
      .start 2 (.plain ⟨0, some 7⟩ (.blocking none)) :: List.replicate 12 (.run 2 false []) ++
        .advance 5 :: List.replicate 2 (.run 0 false [])

/-- Otherwise a wake-up may be lost: a message lies in the channel, and the only thread in an operation on it
    is parked. -/
theorem lost_wakeup_overslept :
    ∃ w : World Nat Nat, (system fun _ => .list).Reachable w ∧ ¬ Served (fun _ => .list) w 0 .recv := by
  have hrun : (runs (T := Nat) (fun _ => .list) overslept).map (fun w =>
      (w.active, (w.thread 1).frame.call.waits, (w.shared.reg.cx 1).select,
        (w.thread 1).frame.handles, (w.shared.buffer 0).available .recv)) =
      some ([1], true, .waiting, [⟨0, .recv, 0, 0⟩], 1) := by decide +kernel
  obtain ⟨w, hw, hview⟩ := Option.map_eq_some_iff.mp hrun
  simp only [Prod.mk.injEq] at hview
  obtain ⟨hactive, hwaits, hsel, hhandles, hone⟩ := hview
  have hr := reachable_of_runs hw
  refine ⟨w, hr, fun hserved => ?_⟩
  have hworks : (w.thread 1).frame.Works 0 .recv := by
    cases hf : (w.thread 1).frame <;> rw [hf] at hhandles <;> cases hhandles
    exact ⟨_, List.mem_singleton_self _, rfl, rfl⟩
  -- No other thread is in an operation.
  have hparked : ∀ t, w.Inside t 0 → w.Parked t := by
    intro t hin
    have hrunning : (w.thread t).frame.ended = false := by
      rcases hin with ⟨d, hin⟩ | ⟨d, st, hin⟩
      · cases hf : (w.thread t).frame <;> rw [hf] at hin <;> first | rfl | exact hin.elim
      · rw [hin]
        rfl
    have hmem := ((lent_of_reachable hr).active t).mpr hrunning
    rw [hactive] at hmem
    obtain rfl := List.mem_singleton.mp hmem
    exact ⟨hwaits, hsel⟩
  obtain ⟨-, hnone⟩ := hserved.parked hparked 1 hworks
  rw [Buffer.available_eq_zero hnone] at hone
  cases hone

end World

end CrossbeamChannel
