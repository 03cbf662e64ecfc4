import CrossbeamChannel.World.Severance
import CrossbeamChannel.World.OneToOne
import CrossbeamChannel.World.InOrder

/-!
# Disconnection is final, and loses nothing

An operation that begins after its side of the channel is shut comes to nothing, whatever the other
threads do: it takes no position, pairs with nobody, and returns that the channel is disconnected
(`World.Barred`). With what the histories tell of the operations before, that is all of it:
`World.Final`.

`Barred` speaks of the operations that have begun since an instant, by their numbers. An older operation
may be in the middle of `start_send` with the flag already read (`array.rs` 203), and still succeed;
this is why finality is not a statement about all operations in progress. A sender that began later reads
the flag first. A receiver has no such look ahead, and finds `head` at `tail`, which nobody moves any
more: the senders are gone, with everything they had begun.
-/

namespace CrossbeamChannel

variable {Tid T : Type}

namespace Phase

variable {cap : Option Nat} {v v' : View} {p p' : Phase T} {k : BufferCall T} {r : Option (Answer T)}
  {d : Side}

/-- A call on this side has taken nothing so far, and has not been refused. A sender who has come to
    try has not seen the flag. -/
def Futile (d : Side) : Phase T → Prop
  | .trying d' => d' = d → d = .recv
  | .refused d' | .taken d' | .granted d' | .completing d' => d' ≠ d
  | .written => d ≠ .send
  | .got _ => d ≠ .recv
  | _ => True

/-- When the flag is set, and a receiver finds nothing, a call goes on to nothing. -/
theorem Drive.futile (h : Drive cap k v p v' p' r) (hv : v.isDisconnected = true)
    (hempty : d = .recv → v.sends = v.recvs) (hle : v'.recvs ≤ v'.sends) (hp : p.Futile d) :
    p'.Futile d := by
  cases h with
  | enter he =>
    unfold Phase.enter at he
    split at he <;> cases he <;> first | exact trivial | exact hp | exact Eq.symm
  | answer ha =>
    cases p <;> first | exact trivial | exact hp
  | run hs =>
    cases hs with
    | stay | settle => exact hp
    | wrote | got => exact Ne.symm hp
    | connected hno | refuse hno =>
      rw [hv] at hno
      cases hno
    | take ht =>
      rename_i d'
      have hne : d' ≠ d := by
        intro heq
        obtain rfl := hp heq
        obtain rfl := heq
        have hempty := hempty rfl
        simp only [View.take, hempty] at hle
        exact absurd hle (Nat.not_succ_le_self _)
      rcases ht with rfl | rfl <;> exact hne
    | full hfull =>
      intro heq
      subst heq
      cases hp rfl
    | retry => exact Eq.symm
    | _ => exact trivial

/-- All such a call can return. -/
theorem answer_of_futile {a : Answer T} (h : p.answer k = some a) (hfits : p.Fits k) :
    (p.Futile d → k = .start d → a = .null) ∧
      (p.Futile .send → ∀ m, k = .write m → a = .unsent m) ∧
      (p.Futile .recv → k = .read → a = .unread) := by
  unfold Phase.answer at h
  split at h <;> cases h
  all_goals refine ⟨fun hp hk => ?_, fun hp m hk => ?_, fun hp hk => ?_⟩
  all_goals cases hk
  all_goals first
    | rfl
    | exact absurd hfits hp
    | exact absurd rfl hp
    | exact congrArg _ hfits

end Phase

namespace Frame

variable {kind : Nat → Kind T} {f g : Frame Tid T} {pr : Prog} {c : Nat} {d : Side}

/-- On this side of the channel the body has got nowhere: it does not wait there, and holds nothing. -/
def Futile (kind : Nat → Kind T) (c : Nat) (d : Side) : Frame Tid T → Prop
  | .plain job _ st => job.chan = c → job.side = d → ∃ n, st = .attempt n
  | .zero job _ st => job.chan = c → job.side = d → st = .pair
  | .finish job st => job.chan = c → job.side = d → st = .complete
  | .select handles _ (.again i st) =>
      ∀ x, handles[i]? = some x → x.chan = c → x.side = d → (kind c).IsZero → st = .first
  | .chosen x tk => x.chan = c → x.side = d → tk = .null
  | _ => True

theorem opFrame_futile (op : Op T) : (op.frame kind : Frame Tid T).Futile kind c d := by
  unfold Op.frame nowStart loopStart
  repeat' split
  all_goals first | trivial | exact fun _ _ => ⟨0, rfl⟩ | exact fun _ _ => rfl

/-- A send or receive elsewhere. -/
theorem Stays.futile {job : Job T} (h : Stays f g) (hjob : f.job = some job)
    (hne : ¬ (job.chan = c ∧ job.side = d)) : g.Futile kind c d := by
  have elsewhere : ∀ {P : Prop}, job.chan = c → job.side = d → P := fun hc hd => absurd ⟨hc, hd⟩ hne
  cases f with
  | plain _ _ _ | zero _ _ _ | finish _ _ =>
    cases hjob
    cases h <;> first | trivial | exact elsewhere
  | _ => cases hjob

end Frame

variable [DecidableEq Tid]

namespace World

variable {kind : Nat → Kind T} {w w' : World Tid T} {t : Tid} {act : Act Tid T} {th : Thread Tid T}
  {count : Nat → Side → Nat} {c : Nat} {d : Side} {since : Tid → Nat}

/-- **What becomes of the operations that have begun since**, on a side of the channel that is shut. -/
structure Barred (kind : Nat → Kind T) (w : World Tid T) (since : Tid → Nat) (c : Nat) (d : Side) :
    Prop where
  phase : (kind c).Buffered → ∀ t, since t < (w.thread t).ops →
    ((w.shared.buffer c).phase t).Futile d
  frame : ∀ t, since t < (w.thread t).ops → (w.thread t).frame.Futile kind c d
  /-- Nobody selects them at the channel. -/
  apart : ∀ t slot, since t < (w.thread t).ops → (kind c).IsZero → (w.stakes kind t).made ⟨c, d, slot⟩ →
    (w.shared.reg.cx t).select ≠ .operation ⟨t, slot⟩
  returns : ∀ t job out, since t < (w.thread t).ops → (w.thread t).job = some job → job.chan = c →
    job.side = d → (w.thread t).frame = .done out → out = .disconnected job.msg

omit [DecidableEq Tid] in
/-- Nobody is queued on the other side. -/
theorem Severed.no_partner (hsev : Severed kind w) (hl : Lent w) (hs : Sound kind w)
    (hd : w.Disconnected kind c) (hworks : (w.thread t).frame.Works c d) :
    (w.shared.reg.waker c d.opposite).entries = [] := by
  refine List.eq_nil_iff_forall_not_mem.mpr fun e he => ?_
  have hpos := hl.count_pos (Frame.works_of_left (hs.books.listed c d.opposite e he))
  rw [hsev.alone hl hd hworks] at hpos
  exact Nat.lt_irrefl 0 hpos

/-- Who tries a zero channel on such a side gets a null token. -/
theorem null_of_shut (hsev : Severed kind w) (hl : Lent w) (hs : Sound kind w) (hshut : w.Shut kind c d)
    (hz : (kind c).IsZero) (hworks : (w.thread t).frame.Works c d) {call : Call T} {pr : Prog}
    {spurious : Bool} {rep : Reply Tid T} {offer : Option (Packet T)} (hpairs : call.Pairs kind c d offer)
    (he : w.shared.exec t kind call pr spurious = some (act, rep)) : rep = .ret (.token .null) := by
  have hnone : (w.shared.reg.wakeOne c d.opposite t).1 = none := by
    cases hfound : (w.shared.reg.wakeOne c d.opposite t).1 with
    | none => rfl
    | some e =>
      have hmem := (Waker.wakeOne_some hfound).1
      rw [hsev.no_partner hl hs hshut.disconnected hworks] at hmem
      cases hmem
  have hpair := Shared.exec_pairs hpairs he
  simp only [Shared.pair, hnone, hshut.disconnected.zero hz, if_true] at hpair
  exact (Prod.mk.inj hpair).2.symm

/-- Who tries a buffered channel on such a side gets a null token, if anything. -/
theorem null_of_futile (hs : Sound kind w) {call : Call T} {pr : Prog} {spurious : Bool} {r : Ret Tid T}
    (hcall : (w.thread t).frame.call = call) (hpr : (w.thread t).prog = pr)
    (hc : call.onBuffer kind pr = some (c, .start d)) (hp : ((w.shared.buffer c).phase t).Futile d)
    (he : w.shared.exec t kind call pr spurious = some (act, .ret r)) : r = .token .null := by
  subst hcall hpr
  obtain ⟨a, hdrives⟩ := Shared.exec_onBuffer hc he
  obtain ⟨spurious, b, hdrive, -⟩ := hdrives.drive
  cases a with
  | none =>
    obtain ⟨pr, hrep, -⟩ := hdrives.goes rfl
    cases hrep
  | some a =>
    have hdriven := (Buffer.drive_driven (hs.buffer c) hdrive).drive
    obtain rfl := (Phase.answer_of_futile hdriven.answered (hs.fits hc)).1 hp rfl
    cases hdrives.answers _ rfl
    rfl

omit [DecidableEq Tid] in
theorem Disconnected.flavor (h : w.Disconnected kind c) : (kind c).Buffered ∨ (kind c).IsZero := by
  unfold Disconnected at h
  cases hk : kind c with
  | array _ _ | list => exact .inl trivial
  | zero => exact .inr trivial
  | _ =>
    rw [hk] at h
    exact h.elim

/-- A handle of a select on such a side is chosen with a null token. -/
theorem Barred.chosen_null (hb : Barred kind w since c d) (hshut : w.Shut kind c d)
    (hsev : Severed kind w) (hl : Lent w) (hs : Sound kind w) (haware : Aware w)
    (htyped : (w.thread t).frame.Typed kind) (hbegun : since t < (w.thread t).ops)
    {handles : List Handle} {timeout : Timeout} {st : SelectStage Tid} {spurious : Bool} {tk : Token}
    {i : Nat} {x : Handle} (hf : (w.thread t).frame = .select handles timeout st)
    (he : w.shared.exec t kind (w.thread t).frame.call (w.thread t).prog spurious =
      some (act, .ret (.token tk)))
    (hi : handles[i]? = some x) (hchan : x.chan = c) (hside : x.side = d)
    (hst : st = .attempt i ∨ st = .accept i ∨ (∃ states, st = .probe i states) ∨
      st = .again i .first ∨ st = .again i .packet) : tk = .null := by
  subst hchan hside
  have hworks : (w.thread t).frame.Works x.chan x.side := by
    rw [hf]
    exact ⟨x, List.mem_of_getElem? hi, rfl, rfl⟩
  have hcall := fun m : Handle → Call T => Frame.onHandle_eq (m := m) hi
  rcases hshut.disconnected.flavor with hk | hz
  · -- It has tried a buffered channel.
    have hstarts : (kind x.chan).starts x.chan x.side = some (x.chan, .start x.side) := hk.starts
    have hc : (w.thread t).frame.call.onBuffer kind (w.thread t).prog = some (x.chan, .start x.side) := by
      rw [hf] at htyped ⊢
      rcases hst with rfl | rfl | ⟨states, rfl⟩ | rfl | rfl
      · simp only [Frame.call, Frame.selectCall, hcall, Call.onBuffer, hstarts]
      · simp only [Frame.call, Frame.selectCall, hcall, Call.onBuffer, hstarts]
      · simp only [Frame.call, Frame.selectCall, hcall, Call.onBuffer, hstarts]
      · simp only [Frame.call, Frame.selectCall, hcall, Call.onBuffer, hstarts]
      · obtain ⟨y, hi', hz⟩ := htyped
        obtain rfl : x = y := Option.some.inj (hi.symm.trans hi')
        exact absurd hz hk.not_zero
    cases null_of_futile hs rfl rfl hc (hb.phase hk t hbegun) he
    rfl
  -- At a zero channel the section at the beginning of a try finds nobody, and then the flag.
  · have tried : ∀ {offer : Option (Packet T)},
        (w.thread t).frame.call.Pairs kind x.chan x.side offer → tk = .null := by
      intro offer hpairs
      cases null_of_shut hsev hl hs hshut hz hworks hpairs he
      rfl
    rcases hst with rfl | rfl | ⟨states, rfl⟩ | rfl | rfl
    · refine tried (.inr ⟨hz, .inl ⟨?_, rfl⟩⟩)
      rw [hf]
      exact hcall _
    · -- It accepts only what somebody has selected.
      have hknows := haware.knows t
      rw [hf] at hknows
      refine absurd hknows (hb.apart t (i + 1) hbegun hz ?_)
      rw [stakes, hf]
      exact ⟨i, x, (List.getElem?_eq_some_iff.mp hi).1, hi, by rw [hz.eq]; trivial, rfl⟩
    · refine tried (.inr ⟨hz, .inl ⟨?_, rfl⟩⟩)
      rw [hf]
      exact hcall _
    · refine tried (.inr ⟨hz, .inr ⟨?_, rfl⟩⟩)
      rw [hf]
      exact hcall _
    · have hfutile := hb.frame t hbegun
      rw [hf] at hfutile
      cases hfutile x hi rfl rfl hz

/-- A select gets nowhere on such a side. -/
theorem Barred.select_next (hb : Barred kind w since c d) (hshut : w.Shut kind c d)
    (hsev : Severed kind w) (hl : Lent w) (hs : Sound kind w) (haware : Aware w)
    (htyped : (w.thread t).frame.Typed kind) (hbegun : since t < (w.thread t).ops)
    {handles : List Handle} {timeout : Timeout} {st : SelectStage Tid} {spurious : Bool} {r : Ret Tid T}
    {order : List Handle} {g : Frame Tid T} (hf : (w.thread t).frame = .select handles timeout st)
    (he : w.shared.exec t kind (w.thread t).frame.call (w.thread t).prog spurious = some (act, .ret r))
    (hres : (w.thread t).frame.resume kind t order r = some g) : g.Futile kind c d := by
  have hfutile := hb.frame t hbegun
  rw [hf] at hres hfutile
  have hleads := Frame.select_leads hres
  cases hleads with
  | panics | gives_up => trivial
  | closes hi hst => exact fun _ _ => rfl
  | fires hi hr hst =>
    subst hr
    exact fun hchan hside => hb.chosen_null hshut hsev hl hs haware htyped hbegun hf he hi hchan hside hst
  | stays order' timeout' st' =>
    by_cases hpauses : (Frame.select order' timeout' st' : Frame Tid T).Pauses
    · obtain ⟨hs', tm, i, rst, heq, hretry⟩ := Frame.pauses_of_resume hres hpauses
      cases heq
      -- Inside the short pause of a handle of this side it cannot be: it would have put up a packet there.
      have later : rst ≠ .first → ∀ rst', (Frame.select handles timeout (.again i rst') : Frame Tid T) =
          .select order' timeout' st' → (Frame.select order' timeout' st' : Frame Tid T).Futile kind c d := by
        intro hne rst' heq
        cases heq
        exact fun x hi hchan hside hz => absurd (hfutile x hi hchan hside hz) hne
      have onward : ∀ {last : Frame Tid T}, Frame.nextHandle handles timeout i (.again · .first) last =
          .select order' timeout' st' → last = .select handles timeout .reset →
          (Frame.select order' timeout' st' : Frame Tid T).Futile kind c d := by
        intro last heq hlast
        subst hlast
        unfold Frame.nextHandle at heq
        split at heq <;> cases heq <;> exact hpauses.elim
      unfold Frame.retryResume at hretry
      split at hretry
      · obtain ⟨y, -, hno⟩ := Option.map_eq_some_iff.mp hretry
        cases hno
      · obtain ⟨y, -, hno⟩ := Option.map_eq_some_iff.mp hretry
        cases hno
      · exact onward (Option.some.inj hretry) rfl
      · -- It would put a packet up, if it did not see that the channel is disconnected.
        cases hretry
        intro x hi hchan hside hz
        subst hchan hside
        have hworks : (w.thread t).frame.Works x.chan x.side := by
          rw [hf]
          exact ⟨x, List.mem_of_getElem? hi, rfl, rfl⟩
        have hcall : (w.thread t).frame.call = .retry x.chan x.side := by
          rw [hf]
          exact Frame.onHandle_eq hi
        cases null_of_shut hsev hl hs hshut hz hworks (.inr ⟨hz, .inr ⟨hcall, rfl⟩⟩) he
      · cases hretry
      · exact later (by simp) _ (Option.some.inj hretry)
      · exact later (by simp) _ (Option.some.inj hretry)
      · cases hretry
      · exact later (by simp) _ (Option.some.inj hretry)
      · obtain ⟨y, -, hno⟩ := Option.map_eq_some_iff.mp hretry
        cases hno
      · exact onward (Option.some.inj hretry) rfl
      · cases hretry
    · cases st' with
      | again i rst => cases rst <;> first | exact fun _ _ _ _ _ => rfl | exact absurd trivial hpauses
      | _ => trivial

/-- `write` and `read` return an error. -/
theorem Barred.complete_next (hb : Barred kind w since c d) (hs : Sound kind w)
    (hbegun : since t < (w.thread t).ops) {job : Job T} {spurious : Bool} {r : Ret Tid T}
    {order : List Handle} {g : Frame Tid T} (hf : (w.thread t).frame = .finish job .complete)
    (hk : (kind job.chan).Buffered)
    (he : w.shared.exec t kind (w.thread t).frame.call (w.thread t).prog spurious = some (act, .ret r))
    (hres : (w.thread t).frame.resume kind t order r = some g) (hchan : job.chan = c)
    (hside : job.side = d) : ∃ out, g = .done out ∧ out = .disconnected job.msg := by
  subst hchan hside
  have hp := hb.phase hk t hbegun
  have hc : (w.thread t).frame.call.onBuffer kind (w.thread t).prog =
      some (job.chan, job.msg.elim .read .write) := by
    rw [hf]
    obtain ⟨c, _ | m⟩ := job <;> rfl
  obtain ⟨a, hdrives⟩ := Shared.exec_onBuffer hc he
  obtain ⟨spurious, b, hdrive, -⟩ := hdrives.drive
  cases a with
  | none =>
    obtain ⟨pr, hrep, -⟩ := hdrives.goes rfl
    cases hrep
  | some a =>
    have hdriven := (Buffer.drive_driven (hs.buffer job.chan) hdrive).drive
    obtain ⟨-, hwrite, hread⟩ := Phase.answer_of_futile (d := job.side) hdriven.answered (hs.fits hc)
    have hrep := hdrives.answers a rfl
    rw [hf] at hres
    obtain ⟨c, _ | m⟩ := job
    · obtain rfl := hread hp rfl
      cases hrep
      exact ⟨_, (Option.some.inj hres).symm, rfl⟩
    · obtain rfl := hwrite hp m rfl
      cases hrep
      exact ⟨_, (Option.some.inj hres).symm, rfl⟩

/-- **A body gets nowhere on such a side**, and returns that the channel is disconnected. -/
theorem Barred.next (hb : Barred kind w since c d) (hshut : w.Shut kind c d)
    (hsev : Severed kind w) (hl : Lent w) (hs : Sound kind w) (haware : Aware w)
    (htyped : (w.thread t).frame.Typed kind) (hserves : (w.thread t).frame.Serves (w.thread t).job)
    (hbegun : since t < (w.thread t).ops) {g : Frame Tid T} {pr' : Prog}
    (hn : Frame.Next kind w.shared t (w.thread t).frame (w.thread t).prog act g pr') :
    g.Futile kind c d ∧ ∀ job out, (w.thread t).job = some job → job.chan = c → job.side = d →
      g = .done out → out = .disconnected job.msg := by
  have hfutile := hb.frame t hbegun
  generalize hfr : (w.thread t).frame = f at hn
  cases hn with
  | more he =>
    subst hfr
    refine ⟨hfutile, fun job out _ _ _ hdone => ?_⟩
    rw [hdone] at he
    cases he
  | ret he hres =>
    subst hfr
    have hstays := Frame.resume_stays hres
    -- A send or receive elsewhere.
    have elsewhere : ∀ {job}, (w.thread t).frame.job = some job → ¬ (job.chan = c ∧ job.side = d) →
        g.Futile kind c d ∧ ∀ job out, (w.thread t).job = some job → job.chan = c → job.side = d →
          g = .done out → out = .disconnected job.msg := by
      intro job hjob hne
      refine ⟨hstays.futile hjob hne, fun job' out hjob' hc hd _ => ?_⟩
      obtain rfl : job' = job := Option.some.inj (hjob'.symm.trans (hl.job t job hjob))
      exact absurd ⟨hc, hd⟩ hne
    cases hf : (w.thread t).frame with
    | plain job mode st =>
      by_cases hplace : job.chan = c ∧ job.side = d
      · obtain ⟨rfl, rfl⟩ := hplace
        rw [hf] at hfutile htyped
        obtain ⟨n, rfl⟩ := hfutile rfl rfl
        have hk : (kind job.chan).Buffered := htyped
        have hc : (w.thread t).frame.call.onBuffer kind (w.thread t).prog =
            some (job.chan, .start job.side) := by
          rw [hf]
          exact hk.starts
        obtain rfl := null_of_futile hs rfl rfl hc (hb.phase hk t hbegun) he
        rw [hf] at hres
        have hg := Option.some.inj hres
        have hsuits : Token.null.Suits (kind job.chan) := .inl hk
        rw [Frame.finishWith_buffered hk hsuits] at hg
        subst hg
        exact ⟨fun _ _ => rfl, fun _ _ _ _ _ hno => by cases hno⟩
      · exact elsewhere (by rw [hf]; rfl) hplace
    | zero job mode st =>
      by_cases hplace : job.chan = c ∧ job.side = d
      · obtain ⟨rfl, rfl⟩ := hplace
        have hworks : (w.thread t).frame.Works job.chan job.side := by
          rw [hf]
          exact ⟨rfl, rfl⟩
        rw [hf] at hfutile htyped
        obtain rfl := hfutile rfl rfl
        have hz : (kind job.chan).IsZero := htyped
        have hpairs : (w.thread t).frame.call.Pairs kind job.chan job.side (Frame.offer job mode) := by
          rw [hf]
          exact .inl rfl
        cases null_of_shut hsev hl hs hshut hz hworks hpairs he
        rw [hf] at hres hserves
        have hg := Option.some.inj hres
        simp only [Frame.finishWith, hz.eq] at hg
        subst hg
        refine ⟨trivial, fun job' out hjob' _ _ hdone => ?_⟩
        cases hdone
        rw [Option.some.inj (hjob'.symm.trans hserves)]
      · exact elsewhere (by rw [hf]; rfl) hplace
    | finish job st =>
      by_cases hplace : job.chan = c ∧ job.side = d
      · obtain ⟨rfl, rfl⟩ := hplace
        rw [hf] at hfutile htyped
        obtain rfl := hfutile rfl rfl
        obtain ⟨out, hg, hout⟩ := hb.complete_next hs hbegun hf htyped he hres rfl rfl
        subst hg
        refine ⟨trivial, fun job' out' hjob' _ _ hdone => ?_⟩
        cases hdone
        rw [hf] at hserves
        rw [hout, Option.some.inj (hjob'.symm.trans hserves)]
      · exact elsewhere (by rw [hf]; rfl) hplace
    | select handles timeout st =>
      refine ⟨hb.select_next hshut hsev hl hs haware htyped hbegun hf he hres,
        fun job out hjob _ _ _ => ?_⟩
      rw [hf] at hserves
      cases hjob.symm.trans hserves
    | timer c' mode =>
      rw [hf] at hstays htyped hserves
      refine ⟨by cases hstays <;> trivial, fun job out hjob hc _ _ => ?_⟩
      rw [hjob] at hserves
      obtain rfl : job.chan = c' := Option.some.inj hserves
      rw [← hc] at hshut
      rcases hshut.disconnected.flavor with hk | hz
      · exact absurd hk htyped.1
      · exact absurd hz htyped.2
    | close c' d' st =>
      rw [hf] at hstays hserves
      refine ⟨by cases hstays <;> trivial, fun job out hjob _ _ _ => ?_⟩
      cases hjob.symm.trans hserves
    | done _ | chosen _ _ | panicked =>
      rw [hf] at hres
      cases hres

/-- Who selects an operation of a zero channel works on the other side of it. -/
theorem works_of_wakeOne (hz : (kind c).IsZero) {call : Call T} {pr : Prog} {rep : Reply Tid T}
    (hcall : (w.thread t).frame.call = call) (htyped : (w.thread t).frame.Typed kind)
    (hexp : Shared.Explains w.shared t kind call pr rep (.wakeOne c d)) :
    (w.thread t).frame.Works c d.opposite := by
  subst hcall
  rcases hexp with ⟨hcall, -⟩ | ⟨offer, e, hpairs, -⟩
  · obtain ⟨job, out, hf, rfl, rfl⟩ := Frame.calls_of_eq hcall
    rw [hf, Side.opposite_opposite]
    exact ⟨rfl, rfl⟩
  · rcases hpairs with hcall | ⟨-, ⟨hcall, -⟩ | ⟨hcall, -⟩⟩
    · obtain ⟨job, mode, hf, rfl, hside, -⟩ := Frame.calls_of_eq hcall
      rw [hf]
      exact ⟨rfl, hside.symm⟩
    · rcases Frame.calls_of_eq hcall with ⟨job, mode, n, hf, rfl, hside⟩ | ⟨hf, -⟩ |
        ⟨hs, timeout, st, i, x, hf, hi, rfl, hside, -⟩
      · rw [hf]
        exact ⟨rfl, hside.symm⟩
      · rw [hf] at htyped
        exact absurd hz htyped.2
      · rw [hf]
        exact ⟨x, List.mem_of_getElem? hi, rfl, hside.symm⟩
    · obtain ⟨hs, timeout, i, x, hf, hi, rfl, hside⟩ := Frame.calls_of_eq hcall
      rw [hf]
      exact ⟨x, List.mem_of_getElem? hi, rfl, hside.symm⟩

/-- Nobody comes to select them. -/
theorem Barred.apart_after (hb : Barred kind w since c d) (hshut : w.Shut kind c d)
    (hsev : Severed kind w) (hl : Lent w) (hx : Stepped kind w w' t act th count) {u : Tid} {slot : Nat}
    (hbegun : since u < (w'.thread u).ops) (hz : (kind c).IsZero)
    (hmade : (w'.stakes kind u).made ⟨c, d, slot⟩) :
    (w'.shared.reg.cx u).select ≠ .operation ⟨u, slot⟩ := by
  intro hsel
  by_cases hu : u = t
  · subst hu
    rcases hx.turn.in_body with ⟨f, pr, rfl, hn⟩ | ⟨-, -, hcalm⟩
    · rw [stakes, hx.after.frame, hx.after.prog] at hmade
      rw [hx.after.shared] at hsel
      have hold := hn.made_before hx.sound.books rfl hx.typed (hx.aware.knows u) hz hsel hmade
      rw [Shared.cx_self hsel] at hsel
      rw [hx.after.ops] at hbegun
      exact hb.apart u slot hbegun hz hold hsel
    · rw [stakes, hx.after.frame, hcalm] at hmade
      exact hmade
  · have hthread := hx.after.others hu
    have hold : (w.stakes kind u).made ⟨c, d, slot⟩ := by
      rw [stakes, hthread] at hmade
      exact hmade
    rw [hthread] at hbegun
    rw [hx.after.shared] at hsel
    have hothers : (w.shared.apply t act).reg.cx u = w.shared.reg.cx u ∨ _ := Shared.cx_others hu
    rcases hothers with hsame | ⟨-, hcx | ⟨c', d', e, rfl, hfound, howner, hcx⟩⟩
    · rw [hsame] at hsel
      exact hb.apart u slot hbegun hz hold hsel
    · rw [hcx] at hsel
      cases hsel
    · -- Whoever selects it works on the other side.
      rw [hcx, Context.storePacket_select] at hsel
      have hoper : e.oper = ⟨u, slot⟩ := Selected.operation.inj hsel
      have hleft := hx.sound.books.listed c' d' e (Waker.wakeOne_some hfound).1
      rw [howner, hoper] at hleft
      have hstake := hx.sound.books.stake u
      cases hstake.distinct _ _ (hstake.sub _ hleft) hold rfl
      have hturn := hx.turn
      generalize hact : (Act.wakeOne c d : Act Tid T) = act' at hturn
      cases hturn with
      | next hn =>
        subst hact
        obtain ⟨spurious, rep, hexec, -⟩ := hn.exec
        have hpos := hl.count_pos (works_of_wakeOne hz rfl hx.typed (Shared.exec_explains hexec))
        rw [hsev.alone hl hshut.disconnected (Frame.works_of_left hleft)] at hpos
        exact Nat.lt_irrefl 0 hpos
      | start _ _ | complete _ _ | drop _ _ _ => cases hact

theorem Barred.phase_after (hb : Barred kind w since c d) (hshut : w.Shut kind c d)
    (hx : Stepped kind w w' t act th count) (hk : (kind c).Buffered) {u : Tid}
    (hbegun : since u < (w'.thread u).ops) : ((w'.shared.buffer c).phase u).Futile d := by
  by_cases hu : u = t
  · subst hu
    have still : act = .silent → w'.shared.buffer c = w.shared.buffer c := by
      rintro rfl
      rw [hx.after.shared]
      rfl
    have hturn := hx.turn
    have hops := hx.after.ops
    cases hturn with
    | next hn =>
      have hp := hb.phase hk u (hops ▸ hbegun)
      rcases drive_next hx c with hsame | ⟨k, r, -, hdrive⟩
      · rwa [hsame]
      · exact hdrive.futile (hshut.disconnected.buffered hk) (fun hd => hshut.drained hd hk)
          (hx.sound'.buffer c).ordered hp
    | start hover _ | drop hover _ _ =>
      rw [still rfl, idle_of_ended hx.sound hover c]
      trivial
    | complete _ _ =>
      rw [still rfl]
      exact hb.phase hk u (hops ▸ hbegun)
  · rw [hx.after.shared, (hx.turn.kept hx.sound hx.typed).others c u hu]
    rw [hx.after.others hu] at hbegun
    exact hb.phase hk u hbegun

/-- A thread that begins or completes an operation. -/
theorem Barred.body_after (hb : Barred kind w since c d) (hshut : w.Shut kind c d)
    (hsev : Severed kind w) (hl : Lent w) (hx : Stepped kind w w' t act th count)
    (hserves : (w.thread t).frame.Serves (w.thread t).job) (hbegun : since t < (w'.thread t).ops) :
    (w'.thread t).frame.Futile kind c d ∧ ∀ job out, (w'.thread t).job = some job → job.chan = c →
      job.side = d → (w'.thread t).frame = .done out → out = .disconnected job.msg := by
  have hturn := hx.turn
  have hops := hx.after.ops
  have hjob := hx.after.job
  rw [hx.after.frame, hjob]
  cases hturn with
  | next hn =>
    exact hb.next hshut hsev hl hx.sound hx.aware hx.typed hserves (hops ▸ hbegun) hn
  | start hover huses =>
    rename_i op
    refine ⟨Frame.opFrame_futile op, fun job out hj _ _ hdone => ?_⟩
    dsimp only at hj hdone
    unfold Op.frame Frame.nowStart Frame.loopStart at hdone
    repeat' split at hdone
    all_goals first | cases hdone; done | cases hj
  | complete hf hside =>
    rename_i x tk msg
    have hfutile := hb.frame t (hops ▸ hbegun)
    rw [hf] at hfutile
    dsimp only
    by_cases hplace : x.chan = c ∧ x.side = d
    -- The token is null, so `write` or `read` returns the error at once.
    · obtain ⟨rfl, rfl⟩ := hplace
      obtain rfl := hfutile rfl rfl
      rcases hshut.disconnected.flavor with hk | hz
      · have hsuits : Token.null.Suits (kind (Job.mk x.chan msg).chan) := .inl hk
        rw [Frame.finishWith_buffered hk hsuits]
        exact ⟨fun _ _ => rfl, fun _ _ _ _ _ hno => by cases hno⟩
      · simp only [Frame.finishWith, hz.eq]
        refine ⟨trivial, fun job out hj _ _ hdone => ?_⟩
        cases hj
        cases hdone
        rfl
    · have hne : ¬ ((Job.mk x.chan msg).chan = c ∧ (Job.mk x.chan msg).side = d) := by
        rwa [hside]
      refine ⟨?_, fun job out hj hc hd _ => ?_⟩
      · rcases Frame.finishWith_cases kind ⟨x.chan, msg⟩ tk with ⟨st, heq⟩ | ⟨out, heq⟩ <;> rw [heq]
        · exact fun hc hd => absurd ⟨hc, hd⟩ hne
        · trivial
      · cases hj
        exact absurd ⟨hc, hd⟩ hne
  | drop hover hpos hfree =>
    refine ⟨?_, fun job out hj _ _ _ => by cases hj⟩
    dsimp only
    unfold lastDropped
    repeat' split
    all_goals trivial

/-- **No turn gets an operation any further on such a side.** -/
theorem Barred.after (hb : Barred kind w since c d) (hshut : w.Shut kind c d) (hsev : Severed kind w)
    (hl : Lent w) (hx : Stepped kind w w' t act th count)
    (hserves : (w.thread t).frame.Serves (w.thread t).job) : Barred kind w' since c d where
  phase := fun hk u hbegun => hb.phase_after hshut hx hk hbegun
  frame := by
    intro u hbegun
    by_cases hu : u = t
    · subst hu
      exact (hb.body_after hshut hsev hl hx hserves hbegun).1
    · rw [hx.after.others hu] at hbegun ⊢
      exact hb.frame u hbegun
  apart := fun u slot hbegun hz hmade => hb.apart_after hshut hsev hl hx hbegun hz hmade
  returns := by
    intro u job out hbegun hjob hc hd hdone
    by_cases hu : u = t
    · subst hu
      exact (hb.body_after hshut hsev hl hx hserves hbegun).2 job out hjob hc hd hdone
    · rw [hx.after.others hu] at hbegun hjob hdone
      exact hb.returns u job out hbegun hjob hc hd hdone

theorem Barred.step (hb : Barred kind w since c d) (hshut : w.Shut kind c d)
    (hr : (system kind).Reachable w) {l : Label Tid T} (hs : w.step kind l = some w') :
    Barred kind w' since c d := by
  rcases step_cases hs with ⟨t, act, th, count, ht, ha⟩ | ⟨c', d', -, rfl⟩ | ⟨now, -, rfl⟩
  · exact hb.after hshut (severed_of_reachable hr) (lent_of_reachable hr) ⟨sound_of_reachable hr,
      sound_of_reachable (hr.step hs), aware_of_reachable hr, typed_of_reachable hr t, ht, ha⟩
      (serves_of_reachable hr t)
  · exact ⟨hb.phase, hb.frame, hb.apart, hb.returns⟩
  · exact ⟨hb.phase, hb.frame, hb.apart, hb.returns⟩

/-! ## What the histories tell -/

section

variable {D D' : Ledger Tid T} {h ds ts : List (Event Tid T)} {a : Ident Tid} {job : Job T}
  {out : Outcome T}

/-- An operation that has returned is asked for nothing more. -/
theorem Page.asked_before (hp : Page kind w w' t act th count D D' h ds ts)
    (hask : .ask a job ∈ h ++ (ds ++ ts)) (hover : .over a out ∈ h) : .ask a job ∈ h := by
  rcases List.mem_append.mp hask with hold | hnew
  · exact hold
  · exfalso
    obtain ⟨rfl, -⟩ := hp.tells.asks _ _ hnew
    obtain ⟨hle, hdone⟩ := hp.attested.overs _ _ hover
    have hturn := hp.stepped.turn
    have hops := hp.stepped.after.ops
    have hframe := hdone (Nat.le_antisymm hle (hp.stepped.after.ops_le hturn t))
    simp only [ident] at hle hframe
    cases hturn with
    | next hn => exact call_of_next hn (by rw [hframe]; rfl)
    | start _ _ | drop _ _ _ =>
      rw [hops] at hle
      exact Nat.not_succ_le_self _ hle
    | complete hf _ => cases hframe.symm.trans hf

/-- Who returns from a send or receive of a channel has worked there. -/
theorem works_of_returns (hx : Stepped kind w w' t act th count)
    (hserves : (w.thread t).frame.Serves (w.thread t).job) (hjob : (w'.thread t).job = some job)
    (hdone : (w'.thread t).frame = .done out) (hk : (kind job.chan).Buffered ∨ (kind job.chan).IsZero) :
    (w.thread t).frame.Works job.chan job.side := by
  have hturn := hx.turn
  have htyped := hx.typed
  rw [hx.after.frame] at hdone
  rw [hx.after.job] at hjob
  cases hturn with
  | next hn =>
    dsimp only at hjob
    rw [hjob] at hserves
    have hcall := call_of_next hn
    cases hf : (w.thread t).frame with
    | plain _ _ _ | zero _ _ _ | finish _ _ =>
      rw [hf] at hserves
      cases hserves
      exact ⟨rfl, rfl⟩
    | timer c mode =>
      rw [hf] at hserves htyped
      obtain rfl : job.chan = c := Option.some.inj hserves
      rcases hk with hk | hz
      · exact absurd hk htyped.1
      · exact absurd hz htyped.2
    | select _ _ _ | close _ _ _ =>
      rw [hf] at hserves
      cases hserves
    | chosen _ _ | done _ | panicked =>
      rw [hf] at hcall
      exact absurd rfl hcall
  | start hover huses =>
    dsimp only at hjob hdone
    unfold Op.frame Frame.nowStart Frame.loopStart at hdone
    repeat' split at hdone
    all_goals first | cases hdone; done | cases hjob
  | complete hf hside =>
    cases hjob
    rw [hf]
    exact ⟨rfl, hside.symm⟩
  | drop _ _ _ => cases hjob

/-- **An operation that is over was over before, or has just returned.** -/
theorem over_step {x y : World Tid T × List (List (Event Tid T))} {l : Label Tid T}
    (hr : (history kind).Reachable x) (hs : (history kind).step x l y)
    (hask : .ask a job ∈ y.2.flatten) (hover : .over a out ∈ y.2.flatten) :
    (.ask a job ∈ x.2.flatten ∧ .over a out ∈ x.2.flatten) ∨
      (a.op = (y.1.thread a.thread).ops ∧ (y.1.thread a.thread).job = some job ∧
        (y.1.thread a.thread).frame = .done out ∧
        ∃ act th count, Stepped kind x.1 y.1 a.thread act th count) := by
  obtain ⟨D, hc⟩ := chronicle_of_reachable hr
  obtain ⟨D', hc'⟩ := chronicle_of_reachable (hr.step hs)
  rcases hc.page hr.forget hs.1 with ⟨t, act, th, count, D'', ds, ts, hp, hes⟩ | ⟨hno, -⟩
  · have hasked := (hc'.attested.asks a job hask).2
    rw [flatten_of_step hs, hes] at hask hover
    rcases List.mem_append.mp hover with hold | hnew
    · exact .inl ⟨hp.asked_before hask hold, hold⟩
    · obtain ⟨rfl, hdone⟩ := (hp.tells.overs a out).mp hnew
      exact .inr ⟨rfl, hasked rfl, hdone, act, th, count, hp.stepped⟩
  · rw [flatten_of_step hs, hno, List.append_nil] at hask hover
    exact .inl ⟨hask, hover⟩

/-- **Who has reported that a channel is disconnected** has told the truth. -/
theorem shut_of_over {x : World Tid T × List (List (Event Tid T))} (hr : (history kind).Reachable x)
    {msg : Option T} (hask : .ask a job ∈ x.2.flatten)
    (hover : .over a (.disconnected msg) ∈ x.2.flatten) :
    x.1.Shut kind job.chan job.side := by
  refine hr.invariant (P := fun x => ∀ a job msg, .ask a job ∈ x.2.flatten →
    .over a (.disconnected msg) ∈ x.2.flatten → x.1.Shut kind job.chan job.side) ?_ ?_ a job msg hask
      hover
  · rintro ⟨_, _⟩ ⟨-, rfl⟩ a job msg hno
    exact absurd hno List.not_mem_nil
  · intro x l y hx ih hs a job msg hask hover
    rcases over_step hx hs hask hover with ⟨hask, hover⟩ | ⟨-, hjob, hdone, -⟩
    · exact (ih a job msg hask hover).step hx.forget hs.1
    · exact (truthful_of_reachable (hx.step hs).forget).returns a.thread job msg hjob hdone

end

/-- What is final at an instant, as the histories there, `h`, and at a later instant, `h'`, tell. -/
structure Final (kind : Nat → Kind T) (w : World Tid T) (h : List (Event Tid T)) (w' : World Tid T)
    (h' : List (Event Tid T)) : Prop where
  /-- Who reports that a channel is disconnected gives back what it was to send, and is right. -/
  told : ∀ a job msg, .ask a job ∈ h → .over a (.disconnected msg) ∈ h →
    msg = job.msg ∧ w.Shut kind job.chan job.side
  stays : ∀ c d, w.Shut kind c d → w'.Shut kind c d
  /-- No message is lost: of what is ever sent with success, everything has been claimed by then. -/
  claimed : ∀ c, w.Shut kind c .recv → ∀ a m, .ask a ⟨c, some m⟩ ∈ h' → .over a (.ok none) ∈ h' →
    (∃ k b, .take a c .send k ∈ h ∧ .take b c .recv k ∈ h) ∨ ∃ b p, .pair a b c p ∈ h
  /-- An operation that begins afterwards returns with the same error, and with what it was to send. -/
  barred : ∀ c d, w.Shut kind c d → ∀ a job out, (w.thread a.thread).ops < a.op → .ask a job ∈ h' →
    .over a out ∈ h' → job.chan = c → job.side = d → out = .disconnected job.msg

section

variable {D : Ledger Tid T} {h : List (Event Tid T)} {a : Ident Tid} {job : Job T} {out : Outcome T}

omit [DecidableEq Tid] in
theorem Shut.flavor (hshut : w.Shut kind c d) : (kind c).Buffered ∨ (kind c).IsZero :=
  hshut.disconnected.flavor

omit [DecidableEq Tid] in
/-- Who fails gives its message back. -/
theorem refuses_of_disconnected (hc : Chronicle kind w D h) (htr : Traded kind w h) (hs : Sound kind w)
    {msg : Option T} (hk : (kind job.chan).Buffered ∨ (kind job.chan).IsZero) (hask : .ask a job ∈ h)
    (hover : .over a (.disconnected msg) ∈ h) : msg = job.msg := by
  have given : ∀ {m : Option T}, (Outcome.disconnected msg : Outcome T).Refuses m → msg = m := by
    rintro m ⟨⟩
    rfl
  obtain ⟨c, _ | m⟩ := job
  · rcases hk with hk | hz
    · rcases htr.received hs hc.attested hk hask hover with ⟨_, _, _, hno, -⟩ | ⟨hr, -⟩
      · cases hno
      · exact given hr
    · rcases hc.received hz hask hover with ⟨_, _, _, hno, -⟩ | ⟨hr, -⟩
      · cases hno
      · exact given hr
  · rcases hk with hk | hz
    · rcases htr.sent hs hc.attested hk hask hover with ⟨hno, -⟩ | ⟨hr, -⟩
      · cases hno
      · exact given hr
    · rcases hc.sent hz hask hover with ⟨hno, -⟩ | ⟨hr, -⟩
      · cases hno
      · exact given hr

omit [DecidableEq Tid] in
/-- What was sent with success has been claimed when nothing is left. -/
theorem Shut.claimed (hshut : w.Shut kind c .recv) (hc : Chronicle kind w D h) (htr : Traded kind w h)
    (hs : Sound kind w) {m : T} (hask : .ask a ⟨c, some m⟩ ∈ h) (hover : .over a (.ok none) ∈ h) :
    (∃ k b, .take a c .send k ∈ h ∧ .take b c .recv k ∈ h) ∨ ∃ b p, .pair a b c p ∈ h := by
  rcases hshut.flavor with hk | hz
  · rcases htr.sent hs hc.attested hk hask hover with ⟨-, k, htake, -⟩ | ⟨⟨⟩, -⟩
    have hlt : k < w.positions c .send := by
      rw [← List.mem_range, ← htr.numbered]
      exact List.mem_filterMap.mpr ⟨_, htake, by simp [Event.position]⟩
    have hempty : w.positions c .send = w.positions c .recv := by
      have hview := hshut.drained rfl hk
      unfold positions
      cases hb : w.shared.buffer c <;> rw [hb] at hview <;> exact hview
    obtain ⟨j, b, -, hj⟩ := htr.taken_below (hempty ▸ hlt)
    exact .inl ⟨k, b, htake, List.mem_of_getElem? hj⟩
  · rcases hc.sent hz hask hover with ⟨-, b, p, hpair, -⟩ | ⟨⟨⟩, -⟩
    exact .inr ⟨b, p, hpair⟩

end

section

variable {x : (history kind : Lib.System (World Tid T × List (List (Event Tid T))) _).Exec} {i j : Nat}

theorem shut_run (hij : i ≤ j) (hj : j ≤ x.len) (h : (x.state i).1.Shut kind c d) :
    (x.state j).1.Shut kind c d :=
  x.persists (Q := fun y => y.1.Shut kind c d)
    (fun _ _ _ hr hs hshut => hshut.step hr.forget hs.1) hij hj h

/-- Nobody returns from a send when the senders are gone. -/
theorem sent_before (hij : i ≤ j) (hj : j ≤ x.len) (hshut : (x.state i).1.Shut kind c .recv)
    {a : Ident Tid} {m : T} {out : Outcome T} (hask : .ask a ⟨c, some m⟩ ∈ (x.state j).2.flatten)
    (hover : .over a out ∈ (x.state j).2.flatten) :
    .ask a ⟨c, some m⟩ ∈ (x.state i).2.flatten ∧ .over a out ∈ (x.state i).2.flatten := by
  have hrun := x.persists (i := i) (j := j) (Q := fun y => y.1.Shut kind c .recv ∧
    ∀ a m out, .ask a ⟨c, some m⟩ ∈ y.2.flatten → .over a out ∈ y.2.flatten →
      .ask a ⟨c, some m⟩ ∈ (x.state i).2.flatten ∧ .over a out ∈ (x.state i).2.flatten) ?_ hij hj
      ⟨hshut, fun _ _ _ h h' => ⟨h, h'⟩⟩
  · exact hrun.2 a m out hask hover
  · intro y l z hr hs ⟨hy, ih⟩
    refine ⟨hy.step hr.forget hs.1, fun a m out hask hover => ?_⟩
    rcases over_step hr hs hask hover with ⟨hask, hover⟩ | ⟨-, hjob, hdone, act, th, count, hx⟩
    · exact ih a m out hask hover
    · have hworks := works_of_returns hx (serves_of_reachable hr.forget _) hjob hdone hy.flavor
      have hpos := (lent_of_reachable hr.forget).count_pos hworks
      exact absurd (hy.gone rfl) (Nat.ne_of_gt hpos)

/-- **Whoever begins afterwards comes to nothing.** -/
theorem barred_run (hij : i ≤ j) (hj : j ≤ x.len) (hshut : (x.state i).1.Shut kind c d) {a : Ident Tid}
    {job : Job T} {out : Outcome T} (hbegun : ((x.state i).1.thread a.thread).ops < a.op)
    (hask : .ask a job ∈ (x.state j).2.flatten) (hover : .over a out ∈ (x.state j).2.flatten)
    (hchan : job.chan = c) (hside : job.side = d) : out = .disconnected job.msg := by
  have hri := x.reachable (hij.trans hj)
  let since : Tid → Nat := fun t => ((x.state i).1.thread t).ops
  have hrun := x.persists (i := i) (j := j) (Q := fun y => y.1.Shut kind c d ∧ Barred kind y.1 since c d ∧
    ∀ a job out, since a.thread < a.op → .ask a job ∈ y.2.flatten → .over a out ∈ y.2.flatten →
      job.chan = c → job.side = d → out = .disconnected job.msg) ?_ hij hj ⟨hshut, ?_, ?_⟩
  · exact hrun.2.2 a job out hbegun hask hover hchan hside
  · intro y l z hr hs ⟨hy, hb, ih⟩
    have hb' := hb.step hy hr.forget hs.1
    refine ⟨hy.step hr.forget hs.1, hb', fun a job out hbegun hask hover hchan hside => ?_⟩
    rcases over_step hr hs hask hover with ⟨hask, hover⟩ | ⟨hop, hjob, hdone, -⟩
    · exact ih a job out hbegun hask hover hchan hside
    · exact hb'.returns a.thread job out (hop ▸ hbegun) hjob hchan hside hdone
  · -- So far nobody has begun since.
    have nobody : ∀ t, ¬ since t < ((x.state i).1.thread t).ops := fun t => Nat.lt_irrefl _
    exact ⟨fun _ t h => absurd h (nobody t), fun t h => absurd h (nobody t),
      fun t _ h => absurd h (nobody t), fun t _ _ h => absurd h (nobody t)⟩
  · intro a job out hbegun hask hover _ _
    obtain ⟨D, hc⟩ := chronicle_of_reachable hri
    exact absurd hbegun (Nat.not_lt.mpr (hc.attested.asks a job hask).1)

/-- **Disconnection is final and loses nothing**: at whatever instant, and however the run goes on. -/
theorem disconnect_is_final (x : (history kind : Lib.System (World Tid T × List (List (Event Tid T))) _).Exec)
    {i j : Nat} (hij : i ≤ j) (hj : j ≤ x.len) :
    Final kind (x.state i).1 (x.state i).2.flatten (x.state j).1 (x.state j).2.flatten := by
  have hr := x.reachable (hij.trans hj)
  have hs := sound_of_reachable hr.forget
  have htr := traded_of_reachable hr
  obtain ⟨D, hc⟩ := chronicle_of_reachable hr
  refine ⟨fun a job msg hask hover => ?_, fun c d h => shut_run hij hj h, fun c h a m hask hover => ?_,
    fun c d h a job out hbegun hask hover hchan hside =>
      barred_run hij hj h hbegun hask hover hchan hside⟩
  · have hshut := shut_of_over hr hask hover
    exact ⟨refuses_of_disconnected hc htr hs hshut.flavor hask hover, hshut⟩
  · obtain ⟨hask, hover⟩ := sent_before hij hj h hask hover
    exact h.claimed hc htr hs hask hover

end

/-- It returns that its channel is disconnected. -/
def Event.finds : Event Tid T → Option (Ident Tid)
  | .over a (.disconnected _) => some a
  | _ => none

/-- Thread 0 sends 7 and drops the last sender. Thread 1 receives it, and then finds out twice, the second
    time by a `select`. -/
def lastMessage : List (Label Nat Nat) :=
  .start 0 (.plain ⟨0, some 7⟩ .nonblocking) :: List.replicate 11 (.run 0 false []) ++
    .drop 0 0 .send :: List.replicate 4 (.run 0 false []) ++
      .start 1 (.plain ⟨0, none⟩ .nonblocking) :: List.replicate 10 (.run 1 false []) ++
        .start 1 (.plain ⟨0, none⟩ (.blocking none)) :: List.replicate 10 (.run 1 false []) ++
          .start 1 (.select [⟨0, .recv, 0, 0⟩] .never) :: List.replicate 8 (.run 1 false []) ++
            .complete 1 none :: List.replicate 2 (.run 1 false [])

theorem disconnect_is_final_lastMessage :
    ∃ x : (history fun _ => .list : Lib.System (World Nat Nat × List (List (Event Nat Nat))) _).Exec,
      Final (fun _ => .list) (x.state 39).1 (x.state 39).2.flatten (x.state 51).1 (x.state 51).2.flatten ∧
      (x.state 39).2.flatten.filterMap Event.finds = [⟨1, 2⟩] ∧
      (x.state 51).2.flatten.filterMap Event.finds = [⟨1, 2⟩, ⟨1, 3⟩] := by
  let x : (history fun _ => .list : Lib.System (World Nat Nat × List (List (Event Nat Nat))) _).Exec :=
    Lib.System.Exec.ofReplay (fun _ _ _ h => Lib.System.recorded_step (fun _ _ _ hs => hs) h)
      (World.init _, []) ⟨rfl, rfl⟩ lastMessage (by decide +kernel)
  have hlen : 51 ≤ x.len := by decide +kernel
  exact ⟨x, disconnect_is_final x (by decide) hlen, by decide +kernel, by decide +kernel⟩

end World

end CrossbeamChannel
